import Retrace.Proofs.Session.Forward
import Retrace.Proofs.Session.Reconstruction
/-!
# The lock on the source

The source is locked by a start that loads it and unlocked on three ways: a start that fails, a step that
fails, and a reset. Whether a run was started and whether it failed is kept elsewhere. The two agree all
the same (`Execution.Guarded`), and as long as the source is locked it is the one that was loaded, since
nothing but its user changes it (`source_perform`).

A session in which no run was started holds nothing of a run (`Untouched`), also when a start was just
refused or failed: such a start leaves playback as it was (`playback_of_unstarted`). Only the clock of the
counters is left out of this: a load that fails has started it (`Counters.started`), and the time it shows
goes on.
-/

namespace Retrace

namespace Player

/-- The failure of a player after something that may have failed. -/
def failureAfter {α : Type} (p : Player) : Except RunFailure α → Option RunFailure
  | .error e => some e
  | .ok _ => p.failure

theorem failure_microStep (p : Player) : p.microStep.1.failure = p.failureAfter p.microStep.2 := by
  unfold microStep fail
  split
  · rfl
  · split
    · rfl
    · split
      · rfl
      · split
        · rfl
        · simp only
          split <;> rfl

theorem failure_walk (start : Option Nat) : ∀ (remaining spent : Nat) (p : Player),
    (walk start remaining spent p).1.failure = p.failureAfter (walk start remaining spent p).2
  | 0, _, _ => rfl
  | remaining + 1, spent, p => by
    have hstep := p.failure_microStep
    unfold walk
    split
    next p₁ e he =>
      rw [he] at hstep
      exact hstep
    next p₁ he =>
      rw [he] at hstep
      exact hstep
    next p₁ he =>
      rw [he] at hstep
      simp only
      split
      · exact hstep
      · -- the failure is still what it was when the walk began
        have hrest := failure_walk start remaining (spent + 1) p₁
        rw [hrest]
        unfold failureAfter at hstep ⊢
        rw [hstep]

/-- A step to the next line fails exactly if the player has a failure after it. -/
theorem failure_stepToNextLine (p : Player) (ceiling : Nat) :
    (p.stepToNextLine ceiling).1.failure = p.failureAfter (p.stepToNextLine ceiling).2 := by
  unfold stepToNextLine
  split
  · rfl
  · exact failure_walk _ ceiling 0 p

end Player

namespace Execution

variable {x x' : Execution}

/-- The source is locked while a run was started and has not failed, and then it is the one that is
played. -/
structure Guarded (x : Execution) : Prop where
  readOnly_iff : x.readOnly = true ↔ x.started = true ∧ x.player.failure = none
  loaded : x.readOnly = true → ∃ t, x.player.trace = some t ∧ Trace.read x.source = .ok t

theorem guarded_new (c : Config) : (new c).Guarded := ⟨⟨nofun, nofun⟩, nofun⟩

theorem guarded_reset (x : Execution) : x.reset.Guarded := ⟨⟨nofun, nofun⟩, nofun⟩

/-- A source that is not locked may be changed. -/
theorem Guarded.setSource (h : x.Guarded) {text : String} (hset : x.setSource text = .ok x') :
    x'.Guarded := by
  unfold Execution.setSource at hset
  split at hset
  · cases hset
  · rename_i hopen
    cases hset
    exact ⟨h.readOnly_iff, fun hlocked => absurd hlocked hopen⟩

theorem Guarded.start (h : x.Guarded) : x.start.1.Guarded := by
  unfold Execution.start
  split
  · exact h
  · split
    · exact h
    · rename_i hunstarted _
      simp only
      unfold Player.load
      cases hread : Trace.read x.source with
      | ok t => exact ⟨⟨fun _ => ⟨rfl, rfl⟩, fun _ => rfl⟩, fun _ => ⟨t, rfl, hread⟩⟩
      | error e => exact ⟨⟨nofun, fun hs => absurd hs.1 hunstarted⟩, nofun⟩

/-- A step that fails unlocks the source, and any other leaves the lock as it is. -/
theorem Guarded.step (h : x.Guarded) : x.step.1.Guarded := by
  have hfailure := x.player.failure_stepToNextLine x.maxMicroSteps
  have htrace := x.onward_step.trace
  have hstep := x.stepResult
  generalize x.step = r at hstep htrace
  cases hstep with
  | idle => exact ⟨h.readOnly_iff, h.loaded⟩
  | @failed p e _ _ hline =>
    rw [hline] at hfailure
    have hfailed : p.failure = some e := hfailure
    exact ⟨⟨nofun, fun hs => nomatch hfailed.symm.trans hs.2⟩, nofun⟩
  | @onward p line _ _ hline =>
    rw [hline] at hfailure
    rw [capture_frame] at htrace ⊢
    have hkept : p.failure = x.player.failure := hfailure
    have hsame : p.trace = x.player.trace := htrace
    refine ⟨?_, ?_⟩
    · show x.readOnly = true ↔ x.started = true ∧ p.failure = none
      rw [hkept]
      exact h.readOnly_iff
    · show x.readOnly = true → ∃ t, p.trace = some t ∧ Trace.read x.source = .ok t
      rw [hsame]
      exact h.loaded

/-! ## What is kept -/

theorem source_start (x : Execution) : x.start.1.source = x.source := by
  unfold start
  split
  · rfl
  · split
    · rfl
    · simp only
      split <;> rfl

/-- Whatever an operation does that leaves the source alone keeps the lock sound. -/
theorem Guarded.affected (h : x.Guarded) (ha : Affected x x') (hsource : x'.source = x.source) :
    x'.Guarded := by
  cases ha with
  | moved source cursor =>
    have hsame : source = x.source := hsource
    subst hsame
    exact ⟨h.readOnly_iff, h.loaded⟩
  | loaded => exact h.start
  | stepped => exact h.step
  | begun => exact h.start.step

end Execution

namespace Session

variable {c : Config} {bounds : DelayBounds} {s : Session} {op : Operation}

/-! ## The source -/

/-- Only its user changes the source. -/
theorem source_perform (ht : s.playback.Tidy) (hop : ∀ text, op ≠ .setSource text) :
    (s.perform op).source = s.source := by
  have hstart : s.start.1.source = s.source := by
    show s.start.1.execution.source = s.execution.source
    rw [execution_start, Execution.source_start]
  have hstepped : ∀ v : Session, v.source = s.source → v.programmed.source = s.source := by
    intro v hv
    show v.programmed.execution.source = s.source
    rw [execution_programmed, ← hv]
    split
    · rfl
    · exact (Execution.step_frame _).1
  cases op with
  | setSource text => exact absurd rfl (hop text)
  | start => exact hstart
  | toggle =>
    show s.toggle.1.playback.work.source = s.source
    rcases s.toggle_playback with htoggled | hstarted
    · rw [htoggled, s.playback.still_toggle.work_eq]
      rfl
    · rw [hstarted]
      exact hstart
  | forward =>
    show s.forward.1.source = s.source
    by_cases hstarted : s.execution.started = true
    · cases hcan : s.execution.history.canStepForward with
      | true =>
        rw [forward_of_ahead hstarted hcan]
        rfl
      | false =>
        rw [forward_of_last ht hstarted hcan]
        exact hstepped s rfl
    · by_cases hload : s.load.2 = .ok .started
      · rw [forward_of_loaded ht hload]
        refine hstepped s.primed ?_
        show s.primed.execution.source = s.source
        rw [execution_primed, Execution.source_start]
        rfl
      · rw [forward_of_refused (Bool.eq_false_iff.mpr hstarted) hload]
        exact Execution.source_start _
  | back =>
    show s.back.1.execution.source = s.source
    rw [execution_back]
    rfl
  | reset | pause | setSpeed | setTurbo | drain | attend | elapseTo => rfl
  | move m =>
    show (s.playback.move Execution.workload m).work.source = s.source
    rcases Playback.touched_move Execution.instant_workload ht.free m with hstill | ⟨n, hwork, -, -⟩
    · rw [hstill.work_eq]
      rfl
    · rw [hwork]
      exact (Execution.step_frame _).1

/-- Changing the source is refused exactly while it is locked, and then nothing changes. -/
theorem setSource_eq (s : Session) (text : String) : s.setSource text =
    if s.execution.readOnly then (s, .error .sourceLocked)
    else (s.withExecution { s.execution with source := text }, .ok ()) := by
  unfold Session.setSource Execution.setSource
  by_cases hlocked : s.execution.readOnly = true
  · rw [if_pos hlocked, if_pos hlocked]
  · rw [if_neg hlocked, if_neg hlocked]

theorem guarded_setSource (h : s.execution.Guarded) (text : String) :
    (s.setSource text).1.execution.Guarded := by
  unfold Session.setSource
  split
  · rename_i hset
    exact h.setSource hset
  · exact h

theorem guarded_perform (ht : s.playback.Tidy) (h : s.execution.Guarded) (op : Operation) :
    (s.perform op).execution.Guarded := by
  have hkept : op ≠ .reset → (∀ text, op ≠ .setSource text) → (s.perform op).execution.Guarded :=
    fun hop hsource => h.affected (perform_affected ht.free hop) (source_perform ht hsource)
  cases op with
  | setSource text => exact guarded_setSource h text
  | reset => exact s.execution.guarded_reset
  | _ => exact hkept nofun nofun

/-- The induction is on the operations. -/
theorem Configured.guarded_run (hconf : Configured c bounds s) (h : s.execution.Guarded)
    (ops : List Operation) : (s.run ops).execution.Guarded := by
  induction ops generalizing s with
  | nil => exact h
  | cons op later ih => exact ih (hconf.perform op) (guarded_perform hconf.tidy h op)

/-! ## Whether a run was started -/

/-- Whether a run was started since the last reset, as it stands after an operation: one that starts
runs finds a trace to play. -/
def begun (s : Session) (before : Bool) : Operation → Bool
  | .reset => false
  | op => before || (op.starts && (Trace.read s.source).isOk)

/-- The same after several operations. -/
def underWay : (s : Session) → (before : Bool) → List Operation → Bool
  | _, before, [] => before
  | s, before, op :: later => underWay (s.perform op) (s.begun before op) later

theorem started_perform (hc : 0 < c.maxMicroSteps)
    (h : IsIdle c s ∨ ∃ t captured, IsPlaying c t s captured) (op : Operation) :
    (s.perform op).execution.started = s.begun s.execution.started op := by
  by_cases hreset : op = .reset
  · subst hreset
    rfl
  have hbegun : s.begun s.execution.started op
      = (s.execution.started || (op.starts && (Trace.read s.source).isOk)) := by
    cases op with
    | reset => exact absurd rfl hreset
    | _ => rfl
  rw [hbegun]
  rcases h with hidle | ⟨t, captured, hplaying⟩
  · rw [hidle.idle.started, Bool.false_or]
    cases hstarts : op.starts with
    | false =>
      rw [Bool.false_and]
      exact (hidle.perform fun hs => nomatch hstarts.symm.trans hs).idle.started
    | true =>
      cases hread : Trace.read s.source with
      | ok t => exact (hidle.perform_of_read hc hread hstarts).playing.started
      | error e => exact (hidle.perform fun _ => ⟨e, hread⟩).idle.started
  · rw [hplaying.playing.started, Bool.true_or]
    exact (hplaying.perform hc hreset).playing.started

theorem started_run (hc : 0 < c.maxMicroSteps)
    (h : IsIdle c s ∨ ∃ t captured, IsPlaying c t s captured) (ops : List Operation) :
    (s.run ops).execution.started = s.underWay s.execution.started ops := by
  induction ops generalizing s with
  | nil => rfl
  | cons op later ih =>
    have hlater := ih (s := s.perform op) (idle_or_playing hc h [op])
    rw [started_perform hc h op] at hlater
    exact hlater

/-! ## While no run was started -/

/-- A session that holds nothing of a run: no snapshot, no call and no count. The clock of the counters
may run all the same, since a load that fails leaves it started. -/
structure Untouched (s : Session) : Prop where
  retained : s.execution.history.retained = #[]
  cursor : s.execution.history.cursor = none
  captures : s.execution.history.captures = 0
  tracker : s.execution.tracker = .empty
  baseline : s.execution.baseline = .none
  totalSteps : s.execution.counters.totalSteps = 0
  functionCalls : s.execution.counters.functionCalls = 0
  maxStackDepth : s.execution.counters.maxStackDepth = 0
  currentCount : s.playback.status.currentStep = 0
  totalCount : s.playback.status.totalSteps = 0

/-- An idle session holds nothing of a run, if it has counted no step. -/
theorem IsIdle.untouched (h : IsIdle c s) (htotal : s.execution.counters.totalSteps = 0)
    (hcurrent : s.playback.status.currentStep = 0) (hcount : s.playback.status.totalSteps = 0) :
    s.Untouched := by
  have hgathered := h.idle.gathered
  unfold Execution.gathered Gathered.nothing at hgathered
  injection hgathered with hbaseline htracker hcalls hdepth
  exact ⟨h.retained, h.idle.cursor, h.idle.captures, htracker, hbaseline, htotal, hcalls, hdepth,
    hcurrent, hcount⟩

/-- An operation that could start a run and finds no trace to play has tried to load one and done
nothing else. -/
theorem IsIdle.perform_of_error (h : IsIdle c s) (hstarts : op.starts = true) {e : RunFailure}
    (hread : Trace.read s.source = .error e) : s.perform op = s.load.1 := by
  have hload : s.load.2 ≠ .ok .started := (h.load_of_error hread).2
  have hstart : s.start.1 = s.load.1 := congrArg Prod.fst (start_of_not_loaded hload)
  cases op with
  | start => exact hstart
  | toggle => exact h.toggle_fst.trans hstart
  | forward => exact forward_of_not_loaded h.idle.started hload
  | _ => exact nomatch hstarts

/-- Loading leaves playback as it is, but for the work and what is told. -/
theorem playback_load (s : Session) : s.load.1.playback = { s.playback with
    work := s.load.1.playback.work, log := s.load.1.playback.log } := rfl

/-- While no run is started no operation counts a step. -/
theorem IsIdle.counted_perform (hc : 0 < c.maxMicroSteps) (h : IsIdle c s)
    (hstill : (s.perform op).execution.started = false)
    (hcurrent : s.playback.status.currentStep = 0) (hcount : s.playback.status.totalSteps = 0) :
    (s.perform op).playback.status.currentStep = 0
      ∧ (s.perform op).playback.status.totalSteps = 0 := by
  have hloads : op.starts = true → (s.perform op).playback.status.currentStep = 0
      ∧ (s.perform op).playback.status.totalSteps = 0 := by
    intro hstarts
    cases hread : Trace.read s.source with
    -- with a trace to play the run would have been started
    | ok t => exact nomatch hstill.symm.trans (h.perform_of_read hc hread hstarts).playing.started
    | error e =>
      rw [h.perform_of_error hstarts hread]
      exact ⟨hcurrent, hcount⟩
  cases op with
  | setSource text =>
    show (s.setSource text).1.playback.status.currentStep = 0
      ∧ (s.setSource text).1.playback.status.totalSteps = 0
    rcases s.setSource_fst text with hlocked | hchanged
    · rw [hlocked]
      exact ⟨hcurrent, hcount⟩
    · rw [hchanged]
      exact ⟨hcurrent, hcount⟩
  | start | toggle | forward => exact hloads rfl
  | back =>
    show s.back.1.playback.status.currentStep = 0 ∧ s.back.1.playback.status.totalSteps = 0
    rw [h.back]
    exact ⟨hcurrent, hcount⟩
  | reset => exact ⟨rfl, rfl⟩
  | pause | setSpeed | setTurbo | drain | attend | elapseTo => exact ⟨hcurrent, hcount⟩
  | move m =>
    obtain ⟨-, hstatus⟩ := Playback.still_move (w := Execution.workload) h.free h.off m
    show (s.playback.move _ m).status.currentStep = 0 ∧ (s.playback.move _ m).status.totalSteps = 0
    rw [hstatus]
    exact ⟨hcurrent, hcount⟩

/-- A session without a run holds nothing of one, after any operation too. -/
theorem untouched_perform (hc : 0 < c.maxMicroSteps)
    (h : IsIdle c s ∨ ∃ t captured, IsPlaying c t s captured)
    (hrest : s.execution.started = false → s.Untouched) (op : Operation)
    (hstill : (s.perform op).execution.started = false) : (s.perform op).Untouched := by
  have hidle' : IsIdle c (s.perform op) := by
    rcases idle_or_playing hc h [op] with hidle | ⟨t, captured, hplaying⟩
    · exact hidle
    · exact nomatch hstill.symm.trans hplaying.playing.started
  -- a reset empties whatever was there; no other operation ends a run, so before it there was none
  by_cases hop : op = .reset
  · subst hop
    exact hidle'.untouched rfl rfl rfl
  rcases h with hidle | ⟨t, captured, hplaying⟩
  · have hnothing := hrest hidle.idle.started
    obtain ⟨hcurrent, hcount⟩ :=
      hidle.counted_perform hc hstill hnothing.currentCount hnothing.totalCount
    exact hidle'.untouched (hidle.totalSteps_perform hc hop hidle' hnothing.totalSteps) hcurrent hcount
  · exact nomatch hstill.symm.trans (hplaying.perform hc hop).playing.started

theorem untouched_run (hc : 0 < c.maxMicroSteps)
    (h : IsIdle c s ∨ ∃ t captured, IsPlaying c t s captured)
    (hrest : s.execution.started = false → s.Untouched) (ops : List Operation) :
    (s.run ops).execution.started = false → (s.run ops).Untouched := by
  induction ops generalizing s with
  | nil => exact hrest
  | cons op later ih =>
    exact ih (s := s.perform op) (idle_or_playing hc h [op]) (untouched_perform hc h hrest op)

/-- Take any session with a valid configuration, after any operations. Its source is locked exactly if a
run was started since the last reset and the player has not failed, and then the trace being played is
the one that the source reads as. Changing the source is refused exactly while it is locked; then nothing
changes, and otherwise nothing but the source does. While no run was started nothing of a run is there
(`Untouched`), whatever was refused or failed before; and an operation that could start a run and finds no
trace to play leaves playback as it was, but for the work and what observers are told. -/
theorem source_lock_sound {c : Config} {s : Session} (hnew : new? c = .ok s) (ops : List Operation) :
    let u := s.run ops
    let x := u.execution
    (x.readOnly = true ↔ s.underWay false ops = true ∧ x.player.failure = none) ∧
    (x.readOnly = true → ∃ t, x.player.trace = some t ∧ Trace.read u.source = .ok t) ∧
    (∀ text, u.setSource text = if x.readOnly then (u, .error .sourceLocked)
      else (u.withExecution { x with source := text }, .ok ())) ∧
    (s.underWay false ops = false → u.Untouched ∧
      ∀ op e, op.starts = true → Trace.read u.source = .error e →
        let v := u.perform op
        v.Untouched ∧ v.playback = { u.playback with work := v.execution, log := v.playback.log }) := by
  intro u x
  obtain ⟨hidle, hc⟩ := isIdle_of_new? hnew
  obtain ⟨bounds, hs⟩ := eq_of_new? hnew
  have hstate := idle_or_playing hc (Or.inl hidle) ops
  have hstarted : x.started = s.underWay false ops := by
    have hrun := started_run hc (Or.inl hidle) ops
    rwa [hidle.idle.started] at hrun
  have hguarded : x.Guarded := by
    have hconf : Configured c bounds s := hs ▸ configured_new c bounds
    have hfirst : s.execution.Guarded := hs ▸ Execution.guarded_new c
    exact hconf.guarded_run hfirst ops
  have huntouched : x.started = false → u.Untouched := by
    have hempty : s.execution.started = false → s.Untouched := fun _ =>
      hs ▸ (hs ▸ hidle).untouched rfl rfl rfl
    exact untouched_run hc (Or.inl hidle) hempty ops
  refine ⟨hstarted ▸ hguarded.readOnly_iff, hguarded.loaded, u.setSource_eq, fun hnone => ?_⟩
  have hunstarted : x.started = false := hstarted.trans hnone
  have hidle' : IsIdle c u := isIdle_of_not_started hnew hunstarted
  refine ⟨huntouched hunstarted, fun op e hstarts hread => ⟨?_, ?_⟩⟩
  · have hstill : (u.perform op).execution.started = false :=
      (hidle'.perform fun _ => ⟨e, hread⟩).idle.started
    exact untouched_perform hc hstate huntouched op hstill
  · rw [hidle'.perform_of_error hstarts hread]
    exact u.playback_load

/-- A run of four lines locks its source until the fourth one fails. -/
theorem lock_until_boom :
    let ops := [.setSource Trace.brokenText, .start, .move (.begin 1), .forward]
    let u := Session.standard.run ops
    let v := Session.standard.run (ops ++ [.forward])
    new? .standard = .ok .standard
    ∧ u.execution.readOnly = true ∧ u.setSource "" = (u, .error .sourceLocked)
    ∧ v.execution.player.failure = some (.runtime "boom") ∧ v.execution.readOnly = false := by
  intro ops u v
  have hnew : new? .standard = .ok .standard := by rfl
  obtain ⟨hlocked, -, hset, -⟩ := source_lock_sound hnew ops
  obtain ⟨hlocked', -, -, -⟩ := source_lock_sound hnew (ops ++ [.forward])
  have hfine : u.execution.player.failure = none := by decide +kernel
  have hfailed : v.execution.player.failure = some (.runtime "boom") := by decide +kernel
  have hunderWay : Session.standard.underWay false ops = true := by decide +kernel
  have hon : u.execution.readOnly = true := hlocked.mpr ⟨hunderWay, hfine⟩
  refine ⟨hnew, hon, ?_, hfailed, ?_⟩
  · rw [hset "", if_pos hon]
  · exact Bool.eq_false_iff.mpr fun hon => nomatch hfailed.symm.trans (hlocked'.mp hon).2

end Session

end Retrace
