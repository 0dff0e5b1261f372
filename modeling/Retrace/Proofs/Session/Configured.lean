import Retrace.Proofs.Playback.Patience
import Retrace.Proofs.Session.Effect
import Retrace.Proofs.Trace.Onward
/-!
# What a session keeps of its configuration

Whatever happens to a session, the bounds that its configuration sets stay what they were, and so does
everything that a reset relies on (`Configured`). So a reset leaves nothing of the run behind in the
execution (`Execution.Configured.reset_eq`).
-/

namespace Retrace

theorem DelayBounds.clamp_clamp (b : DelayBounds) (ms : Nat) : b.clamp (b.clamp ms) = b.clamp ms := by
  have hle := b.least_le_most
  unfold clamp
  omega

namespace Execution

/-- An execution bounded as its configuration says. -/
structure Configured (c : Config) (x : Execution) : Prop where
  limits : x.player.limits = c.player
  ceiling : x.maxMicroSteps = c.maxMicroSteps
  capacity : x.history.capacity = (History.empty c.history).capacity
  interval : x.history.interval = (History.empty c.history).interval

variable {c : Config} {x x' : Execution}

theorem configured_new (c : Config) : Configured c (.new c) := ⟨rfl, rfl, rfl, rfl⟩

theorem Configured.capacity_eq (h : Configured c x) (hpos : 0 < c.history.maxHistory) :
    x.history.capacity = c.history.maxHistory :=
  h.capacity.trans (Nat.max_eq_left hpos)

/-- A reset returns everything but the source to the beginning. -/
theorem Configured.reset_eq (h : Configured c x) : x.reset = { new c with source := x.source } := by
  have hhistory : x.history.clear = History.empty c.history := by
    unfold History.clear
    rw [h.capacity, h.interval]
    rfl
  have hplayer : x.player.reset = .idle c.player := congrArg Player.idle h.limits
  unfold reset new
  rw [hhistory, hplayer, h.ceiling]

theorem Configured.reset (h : Configured c x) : Configured c x.reset := by
  rw [h.reset_eq]
  exact ⟨rfl, rfl, rfl, rfl⟩

theorem Configured.start (h : Configured c x) : Configured c x.start.1 := by
  have hlimits := (x.player.limits_load x.source).trans h.limits
  unfold Execution.start
  split
  · exact h
  · split
    · exact h
    · simp only
      generalize x.player.load x.source = loaded at hlimits
      obtain ⟨p, r⟩ := loaded
      cases r <;> exact ⟨hlimits, h.ceiling, h.capacity, h.interval⟩

theorem Configured.capture (h : Configured c x) : Configured c x.capture.1 := by
  have hhistory : x.capture.1.history.capacity = x.history.capacity
      ∧ x.capture.1.history.interval = x.history.interval := by
    cases hposition : x.player.probe.position with
    | none =>
      rw [capture_of_no_position hposition]
      exact ⟨rfl, rfl⟩
    | some position =>
      rw [capture_of_position hposition, observe_frame]
      exact ⟨History.append_capacity _ _, History.append_interval _ _⟩
  rw [capture_frame]
  exact ⟨h.limits, h.ceiling, hhistory.1.trans h.capacity, hhistory.2.trans h.interval⟩

/-- A step takes the player onward. -/
theorem onward_step (x : Execution) : x.player.Onward x.step.1.player := by
  have honward := x.player.onward_stepToNextLine x.maxMicroSteps
  have hstep := x.stepResult
  generalize x.step = r at hstep
  cases hstep with
  | idle => exact .refl _
  | failed _ _ hline =>
    rw [hline] at honward
    exact honward
  | onward _ _ hline =>
    rw [hline] at honward
    rw [capture_frame]
    exact honward

theorem Configured.step (h : Configured c x) : Configured c x.step.1 := by
  have hlimits := x.onward_step.limits.trans h.limits
  have hstep := x.stepResult
  generalize x.step = r at hstep hlimits
  cases hstep with
  | idle => exact ⟨h.limits, h.ceiling, h.capacity, h.interval⟩
  | failed => exact ⟨hlimits, h.ceiling, h.capacity, h.interval⟩
  | onward =>
    rw [capture_frame] at hlimits
    exact Configured.capture ⟨hlimits, h.ceiling, h.capacity, h.interval⟩

theorem Configured.affected (h : Configured c x) (ha : Affected x x') : Configured c x' := by
  cases ha with
  | moved source cursor => exact ⟨h.limits, h.ceiling, h.capacity, h.interval⟩
  | loaded => exact h.start
  | stepped => exact h.step
  | begun => exact h.start.step

/-- Only a step of a run that goes on leaves more to do. -/
theorem live_of_more {x : Execution} (hmore : x.step.2.2 = .more) :
    x.started = true ∧ x.player.isDone = false := by
  have hstep := x.stepResult
  generalize x.step = r at hstep hmore
  cases hstep with
  | idle => cases hmore
  | failed hstarted hlive | onward hstarted hlive => exact ⟨hstarted, hlive⟩

/-- Each step that leaves more to do leaves less of the trace. -/
theorem wearing_workload :
    Workload.Wearing workload (fun x => 0 < x.maxMicroSteps) (fun x => x.player.left) := by
  refine ⟨fun _ x hc => ?_, fun _ x _ => x.onward_step.left_le, fun _ x hc hmore => ?_⟩
  · exact Nat.lt_of_lt_of_eq hc x.step_frame.2.1.symm
  · obtain ⟨hstarted, hdone⟩ := live_of_more hmore
    obtain ⟨hsame, -, hiff⟩ := step_of_live hstarted hdone
    obtain ⟨line, hline, hhas⟩ := hiff.mp hmore
    show x.step.1.player.left < x.player.left
    rw [hsame]
    exact Player.left_stepToNextLine hc (Prod.ext rfl hline) hhas

end Execution

namespace Session

variable {c : Config} {bounds : DelayBounds} {s : Session}

/-- A session that is set up as its configuration says, and whose loops are those of its runs. -/
structure Configured (c : Config) (bounds : DelayBounds) (s : Session) : Prop where
  tidy : s.playback.Tidy
  bounds_eq : s.playback.bounds = bounds
  poll_eq : s.playback.pausePollMs = c.playback.pausePollMs
  speed_eq : bounds.clamp s.playback.status.speedMs = s.playback.status.speedMs
  execution : s.execution.Configured c

theorem Configured.of_settings (h : Configured c bounds s) {s' : Session} (ht : s'.playback.Tidy)
    (hs : s.playback.SameSettings s'.playback) (hx : s'.execution.Configured c) :
    Configured c bounds s' :=
  ⟨ht, hs.bounds.trans h.bounds_eq, hs.pausePollMs.trans h.poll_eq, hs.speed.symm ▸ h.speed_eq, hx⟩

theorem Configured.of_loops (h : Configured c bounds s) {s' : Session}
    (hs : s.playback.SameLoops s'.playback) (hx : s'.execution.Configured c) :
    Configured c bounds s' := h.of_settings (h.tidy.of_same hs) hs.toSameSettings hx

/-! ## What operations do to the loops -/

theorem sameLoops_withExecution (s : Session) (x : Execution) :
    s.playback.SameLoops (s.withExecution x).playback :=
  Playback.sameLoops_of_eq rfl rfl

theorem sameLoops_setSource (s : Session) (text : String) :
    s.playback.SameLoops (s.setSource text).1.playback := by
  rcases s.setSource_fst text with hlocked | hchanged
  · rw [hlocked]
    exact .refl _
  · rw [hchanged]
    exact s.sameLoops_withExecution _

theorem sameLoops_load (s : Session) : s.playback.SameLoops s.load.1.playback :=
  Playback.sameLoops_of_eq rfl rfl

/-- Starting a run is loading it, and playing it if it was loaded. -/
theorem start_playback (s : Session) : s.start.1.playback = s.load.1.playback
    ∨ s.start.1.playback = s.load.1.playback.play.1 := by
  unfold Session.start
  generalize s.load = loaded
  obtain ⟨s', outcome⟩ := loaded
  split
  next he =>
    injection he with hs
    rw [hs]
    exact Or.inr rfl
  next he =>
    injection he with hs
    rw [hs]
    exact Or.inl rfl

theorem toggle_playback (s : Session) : s.toggle.1.playback = s.playback.toggle
    ∨ s.toggle.1.playback = s.start.1.playback := by
  unfold Session.toggle
  split
  · exact Or.inl rfl
  · generalize s.start = started
    obtain ⟨s', outcome⟩ := started
    cases outcome <;> exact Or.inr rfl

/-- Going forward leaves the playback alone but for its work and what observers are told, or takes a step
by hand, for which a run that was not started is loaded and held up. -/
theorem forward_playback (s : Session) :
    (∃ work log, s.forward.1.playback = { s.playback with work := work, log := log }) ∨
    s.forward.1 = s.stepProgram.1 ∨
    s.forward.1 = (stepProgram ⟨s.load.1.playback.pause⟩).1 := by
  unfold Session.forward
  split
  · split
    · exact Or.inl ⟨_, _, rfl⟩
    · refine Or.inr (Or.inl ?_)
      generalize s.stepProgram = stepped
      obtain ⟨s', outcome⟩ := stepped
      cases outcome <;> rfl
  · have hloaded : ∃ work log, s.load.1.playback = { s.playback with work := work, log := log } :=
      ⟨_, _, rfl⟩
    generalize s.load = loaded at hloaded
    obtain ⟨s', outcome⟩ := loaded
    split
    next he =>
      -- the run was loaded, and its first step is taken
      injection he with hs
      subst hs
      refine Or.inr (Or.inr ?_)
      simp only
      generalize Session.stepProgram ⟨s'.playback.pause⟩ = stepped
      obtain ⟨s'', outcome'⟩ := stepped
      cases outcome' <;> rfl
    next he =>
      injection he with hs
      rw [hs] at hloaded
      exact Or.inl hloaded
    next he =>
      injection he with hs
      rw [hs] at hloaded
      exact Or.inl hloaded

theorem sameLoops_stepProgram (ht : s.playback.Tidy) :
    s.playback.SameLoops s.stepProgram.1.playback := by
  have hticketed : s.playback.SameLoops s.playback.ticketed :=
    Playback.sameLoops_of_eq rfl rfl
  unfold stepProgram
  rw [Playback.stepForward_of_instant Execution.instant_workload ht.free ht.answered]
  exact hticketed.trans (Playback.sameLoops_byHand _)

theorem sameLoops_forward (ht : s.playback.Tidy) :
    s.playback.SameLoops s.forward.1.playback := by
  rcases s.forward_playback with ⟨work, log, hframe⟩ | hstepped | hbegun
  · rw [hframe]
    exact Playback.sameLoops_of_eq rfl rfl
  · rw [hstepped]
    exact sameLoops_stepProgram ht
  · have hheld := s.sameLoops_load.trans s.load.1.playback.sameLoops_pause
    rw [hbegun]
    exact hheld.trans (sameLoops_stepProgram (s := ⟨s.load.1.playback.pause⟩) (ht.of_same hheld))

theorem sameLoops_back (s : Session) : s.playback.SameLoops s.back.1.playback := by
  unfold Session.back
  split
  · exact .refl _
  · rename_i history snapshot _
    have hmoved : s.playback.SameLoops ((s.withExecution { s.execution with
        history := history }).notify [.snapshot snapshot]).playback :=
      Playback.sameLoops_of_eq rfl rfl
    exact hmoved.trans (Playback.sameLoops_resumeFromCompleted _)

/-! ## What operations keep -/

theorem Configured.start (h : Configured c bounds s) : Configured c bounds s.start.1 := by
  have hexecution : s.start.1.execution.Configured c := by
    rw [execution_start]
    exact h.execution.start
  rcases s.start_playback with hsame | hplayed
  · refine h.of_loops ?_ hexecution
    rw [hsame]
    exact s.sameLoops_load
  · have hloaded := s.sameLoops_load
    refine h.of_settings ?_ ?_ hexecution
    · rw [hplayed]
      exact (h.tidy.of_same hloaded).play
    · rw [hplayed]
      exact hloaded.toSameSettings.trans (Playback.sameSettings_play _)

theorem Configured.toggle (h : Configured c bounds s) : Configured c bounds s.toggle.1 := by
  rcases s.toggle_playback with htoggled | hstarted
  · refine h.of_settings ?_ ?_ (h.execution.affected s.affected_toggle)
    · rw [htoggled]
      exact h.tidy.toggle
    · rw [htoggled]
      exact s.playback.sameSettings_toggle
  · have hsession : s.toggle.1 = s.start.1 := congrArg Session.mk hstarted
    rw [hsession]
    exact h.start

/-- Setting the speed clamps it, and clamping twice is clamping once. -/
theorem Configured.setSpeed (h : Configured c bounds s) (ms : Nat) :
    Configured c bounds (s.setSpeed ms).1 := by
  refine ⟨⟨h.tidy.free, h.tidy.answered, h.tidy.started⟩, h.bounds_eq, h.poll_eq, ?_, h.execution⟩
  show bounds.clamp (s.playback.bounds.clamp ms) = s.playback.bounds.clamp ms
  rw [h.bounds_eq, DelayBounds.clamp_clamp]

theorem Configured.perform (h : Configured c bounds s) (op : Operation) :
    Configured c bounds (s.perform op) := by
  have hexecution : op ≠ .reset → (s.perform op).execution.Configured c := fun hop =>
    h.execution.affected (perform_affected h.tidy.free hop)
  cases op with
  | setSource text => exact h.of_loops (s.sameLoops_setSource text) (hexecution nofun)
  | start => exact h.start
  | toggle => exact h.toggle
  | forward => exact h.of_loops (sameLoops_forward h.tidy) (hexecution nofun)
  | back => exact h.of_loops s.sameLoops_back (hexecution nofun)
  | reset =>
    exact h.of_loops (Playback.sameLoops_of_eq rfl rfl) h.execution.reset
  | pause => exact h.of_loops s.playback.sameLoops_pause (hexecution nofun)
  | setSpeed ms => exact h.setSpeed ms
  | setTurbo on =>
    exact h.of_loops (Playback.sameLoops_of_eq rfl rfl) (hexecution nofun)
  | drain =>
    exact h.of_loops (Playback.sameLoops_of_eq rfl rfl) (hexecution nofun)
  | attend =>
    exact h.of_settings ⟨h.tidy.free, h.tidy.answered, h.tidy.started⟩ ⟨rfl, rfl, rfl⟩
      (hexecution nofun)
  | move m =>
    exact h.of_settings (h.tidy.move Execution.instant_workload m)
      (Playback.sameSettings_move Execution.instant_workload h.tidy.free m) (hexecution nofun)
  | elapseTo time =>
    exact h.of_settings ⟨h.tidy.free, h.tidy.answered, h.tidy.started⟩ ⟨rfl, rfl, rfl⟩
      (hexecution nofun)

theorem Configured.run (h : Configured c bounds s) (ops : List Operation) :
    Configured c bounds (s.run ops) := by
  induction ops generalizing s with
  | nil => exact h
  | cons op ops ih => exact ih (h.perform op)

theorem configured_new (c : Config) (bounds : DelayBounds) :
    Configured c bounds ⟨.new c.playback bounds (.new c)⟩ :=
  ⟨⟨rfl, rfl, nofun⟩, rfl, rfl, DelayBounds.clamp_clamp _ _, Execution.configured_new c⟩

end Session

end Retrace
