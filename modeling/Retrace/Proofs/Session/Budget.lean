import Retrace.Proofs.Playback.Interleaving
import Retrace.Proofs.Playback.Results
import Retrace.Proofs.Session.Completion
import Retrace.Proofs.Session.Observers
/-!
# A session takes no more steps than its trace has entries

Each step of a run goes on to a later entry, or it is the last one. So a trace of `n` entries is played in at
most `n` steps, whoever takes them, and as the last of them captures nothing there are fewer than `n`
snapshots. That a step always goes on is owed to the ceiling of the small steps, which no valid
configuration sets to zero.

A loop asks for a step each time it begins or wakes while its run is live and running (`Session.asks`). What
it may still ask for is a quota that each request takes one off: the entries that are left, or one request
to find out that there is nothing more to play (`Session.quota`). Only the user can raise it again.
-/

namespace Retrace

open Session (Operation IsIdle IsPlaying IsPaced)

/-- The first entry is no stop. -/
theorem Trace.length_reachedStops_lt {t : Trace} {ceiling : Nat} (hc : 0 < ceiling)
    (limits : PlayerLimits) (hpos : 0 < t.entries.size) :
    (t.reachedStops limits ceiling).length < t.entries.size := by
  have hall := length_stopsFrom_lt hc 0 hpos
  have hreached : (t.reachedStops limits ceiling).length ≤ (t.stopsFrom ceiling 0).length :=
    (List.takeWhile_sublist _).length_le
  omega

namespace Execution

variable {c : Config} {t : Trace} {x y : Execution} {captured : List Snapshot} {steps k : Nat}
  {outcome : StepOutcome}

theorem Playing.length_lt (hc : 0 < c.maxMicroSteps) (hpos : 0 < t.entries.size)
    (h : Playing c t x captured) : captured.length < t.entries.size :=
  Nat.lt_of_le_of_lt h.length_le (Trace.length_reachedStops_lt hc c.player hpos)

/-- A step captures a snapshot exactly if it leaves more to play. -/
theorem Playing.captures_step (hc : 0 < c.maxMicroSteps) (h : Playing c t x captured) :
    x.step.1.history.captures = x.history.captures + if x.step.2.2 = .more then 1 else 0 := by
  have hcaptures := h.captures
  have hstep := h.step hc
  generalize x.step.2.2 = outcome at hstep
  generalize x.step.1 = x' at hstep
  cases hstep with
  | more s hplaying _ =>
    rw [if_pos rfl, hplaying.captures, List.length_append, hcaptures]
    rfl
  | exhausted hplaying _ hmore _ => rw [if_neg hmore, hplaying.captures, hcaptures, Nat.add_zero]

/-- There is an entry for each step, and another one while there is more to play. -/
theorem Paced.steps_le (hc : 0 < c.maxMicroSteps) (hpos : 0 < t.entries.size)
    (h : Paced c t x captured steps) :
    steps ≤ t.entries.size ∧ (x.player.isDone = false → steps < t.entries.size) := by
  have hlength := h.playing.length_lt hc hpos
  refine ⟨?_, fun hlive => h.under_way hlive ▸ hlength⟩
  cases hdone : x.player.isDone with
  | false => exact h.under_way hdone ▸ Nat.le_of_lt hlength
  | true => exact h.finished hdone ▸ hlength

/-- A step of a run that goes on is counted. -/
theorem Paced.step_of_live (hc : 0 < c.maxMicroSteps) (h : Paced c t x captured steps)
    (hlive : x.player.isDone = false) :
    (∃ captured', Paced c t x.step.1 captured' (steps + 1)) ∧
    (x.step.2.2 = .more → x.step.1.player.isDone = false) := by
  obtain ⟨htotal, hcases⟩ := h.playing.step_of_live hc hlive
  obtain ⟨captured', hplaying⟩ := h.playing.exists_step hc
  have hpaced := h.step hc hplaying
  have hcount := hpaced.total
  rw [htotal, h.total] at hcount
  rw [← hcount] at hpaced
  refine ⟨⟨captured', hpaced⟩, fun hmore => ?_⟩
  rcases hcases with ⟨-, -, hgo⟩ | ⟨hnot, -⟩
  · exact hgo
  · exact absurd hmore hnot

/-- So are the steps up to the last one. The induction is on these. -/
theorem PlaysOut.paced (hc : 0 < c.maxMicroSteps) (h : PlaysOut k x y outcome)
    (hx : Paced c t x captured steps) (hlive : x.player.isDone = false) :
    ∃ captured', Paced c t y captured' (steps + k) := by
  induction h generalizing captured steps with
  | last _ => exact (hx.step_of_live hc hlive).1
  | more hmore _ ih =>
    obtain ⟨⟨captured', hnext⟩, hgo⟩ := hx.step_of_live hc hlive
    obtain ⟨captured'', hend⟩ := ih hnext (hgo hmore)
    rw [Nat.add_assoc, Nat.add_comm 1] at hend
    exact ⟨captured'', hend⟩

/-- Where nothing is left to do, one step finds that out. -/
theorem playsOut_of_finished (h : x.step.2.2 = .finished) : PlaysOut 1 x x.step.1 x.step.2.2 :=
  .last (by rw [h]; nofun)

/-- The steps that are left are no more than the entries that are left. -/
theorem Paced.exists_playsOut (hc : 0 < c.maxMicroSteps) (hpos : 0 < t.entries.size)
    (h : Paced c t x captured steps) :
    ∃ k y outcome, PlaysOut k x y outcome ∧ k ≤ max 1 (t.entries.size - steps) := by
  cases hlive : x.player.isDone with
  | true =>
    have hfinished : x.step.2.2 = .finished := by rw [step_of_isDone hlive]
    exact ⟨1, _, _, playsOut_of_finished hfinished, Nat.le_max_left _ _⟩
  | false =>
    obtain ⟨k, y, outcome, -, hplays, -⟩ := h.playing.exists_playsOut hc hpos
    obtain ⟨captured', hend⟩ := hplays.paced hc h hlive
    have hcount := (hend.steps_le hc hpos).1
    exact ⟨k, y, outcome, hplays, by omega⟩

end Execution

/-! ## The count that playback tells -/

namespace Playback

variable {σ : Type} {p q r : Playback σ}

/-- From the first to the second no step is counted. -/
structure Uncounted (p q : Playback σ) : Prop where
  current : q.status.currentStep ≤ p.status.currentStep
  total : q.status.totalSteps ≤ p.status.totalSteps

theorem uncounted_of_eq (hcurrent : q.status.currentStep = p.status.currentStep)
    (htotal : q.status.totalSteps = p.status.totalSteps) : p.Uncounted q :=
  ⟨Nat.le_of_eq hcurrent, Nat.le_of_eq htotal⟩

theorem Uncounted.trans (h : p.Uncounted q) (h' : q.Uncounted r) : p.Uncounted r :=
  ⟨Nat.le_trans h'.current h.current, Nat.le_trans h'.total h.total⟩

theorem uncounted_reset (p : Playback σ) : p.Uncounted p.reset := ⟨Nat.zero_le _, Nat.zero_le _⟩

theorem uncounted_play (p : Playback σ) : p.Uncounted p.play.1 := by
  unfold play
  split <;> exact uncounted_of_eq rfl rfl

theorem uncounted_toggle (p : Playback σ) : p.Uncounted p.toggle := by
  unfold toggle
  split
  · exact p.uncounted_reset.trans p.reset.uncounted_play
  · split
    · exact uncounted_of_eq rfl rfl
    · exact p.uncounted_play

theorem uncounted_resumeFromCompleted (p : Playback σ) : p.Uncounted p.resumeFromCompleted.1 := by
  unfold resumeFromCompleted
  split <;> exact uncounted_of_eq rfl rfl

theorem uncounted_complete (p : Playback σ) : p.Uncounted p.complete := by
  unfold complete
  split <;> exact uncounted_of_eq rfl rfl

theorem uncounted_heldUp (p : Playback σ) : p.Uncounted p.heldUp := by
  unfold heldUp
  split <;> exact uncounted_of_eq rfl rfl

section Backed

variable {p q : Playback Execution} {c : Config} {t : Trace} {captured : List Snapshot}

/-- There is a capture for each step that is counted. -/
structure Backed (p : Playback Execution) : Prop where
  current : p.status.currentStep ≤ p.work.history.captures
  total : p.status.totalSteps ≤ p.work.history.captures

theorem Backed.uncounted (h : p.Backed) (hcounts : p.Uncounted q)
    (hcaptures : q.work.history.captures = p.work.history.captures) : q.Backed := by
  constructor
  · rw [hcaptures]
    exact Nat.le_trans hcounts.current h.current
  · rw [hcaptures]
    exact Nat.le_trans hcounts.total h.total

/-- Playback whose work is left alone. -/
theorem Backed.still (h : p.Backed) (hcounts : p.Uncounted q) (hstill : p.Still q) : q.Backed :=
  h.uncounted hcounts (congrArg (fun x : Execution => x.history.captures) hstill.work_eq)

/-- A step is counted if it leaves more to do, and then it has captured something. -/
theorem Backed.stepped (hc : 0 < c.maxMicroSteps) (h : p.Backed)
    (hplaying : Execution.Playing c t p.work captured) : (p.stepped Execution.workload).Backed := by
  have hcaptures := hplaying.captures_step hc
  have hstatus : (p.stepped Execution.workload).status
      = if p.work.step.2.2 = .more then p.status.countStep else p.status := rfl
  obtain ⟨hcurrent, htotal⟩ := h
  by_cases hmore : p.work.step.2.2 = .more
  · rw [if_pos hmore] at hcaptures hstatus
    constructor
    · rw [hstatus]
      show p.status.currentStep + 1 ≤ p.work.step.1.history.captures
      omega
    · rw [hstatus]
      show max p.status.totalSteps (p.status.currentStep + 1) ≤ p.work.step.1.history.captures
      omega
  · rw [if_neg hmore] at hcaptures hstatus
    constructor
    · rw [hstatus]
      exact Nat.le_trans hcurrent (Nat.le_of_eq hcaptures.symm)
    · rw [hstatus]
      exact Nat.le_trans htotal (Nat.le_of_eq hcaptures.symm)

/-- What follows a step counts nothing. -/
theorem Backed.complete (h : p.Backed) : p.complete.Backed :=
  h.uncounted p.uncounted_complete (by rw [complete_work])

theorem Backed.fail (h : p.Backed) (e : SessionFailure) : (p.fail e).Backed := ⟨h.current, h.total⟩

theorem Backed.move (hc : 0 < c.maxMicroSteps) (h : p.Backed) (hfree : p.gate = .free)
    (hplaying : Execution.Playing c t p.work captured) (m : Move) :
    (p.move Execution.workload m).Backed := by
  rcases p.move_cases (w := Execution.workload) hfree m with
    ⟨-, hscene⟩ | ⟨run, q, -, hscene, hlive, hrunning, hmove⟩
  · refine h.uncounted (uncounted_of_eq ?_ ?_) ?_
    · rw [hscene.status]
    · rw [hscene.status]
    · rw [hscene.work]
  · have hbefore : q.Backed := ⟨hscene.status ▸ hscene.work ▸ h.current,
      hscene.status ▸ hscene.work ▸ h.total⟩
    have hstepped := hbefore.stepped hc (hscene.work.symm ▸ hplaying)
    rw [hmove, goOn_of_running Execution.instant_workload (hscene.gate.trans hfree) hlive hrunning]
    cases q.outcome Execution.workload with
    | more => exact ⟨hstepped.current, hstepped.total⟩
    | finished => exact hstepped.complete
    | failed e => exact hstepped.fail e

theorem Backed.byHand (hc : 0 < c.maxMicroSteps) (h : p.Backed)
    (hplaying : Execution.Playing c t p.work captured) : (p.byHand Execution.workload).1.Backed := by
  obtain ⟨hwork, -⟩ := p.heldUp_frame
  have hheld : p.heldUp.Backed := h.uncounted p.uncounted_heldUp (by rw [hwork])
  have hstepped := hheld.stepped hc (hwork.symm ▸ hplaying)
  unfold Playback.byHand
  split
  · exact h
  · cases p.heldUp.outcome Execution.workload with
    | more => exact hstepped
    | finished => exact hstepped.complete
    | failed e => exact hstepped.fail e

end Backed

end Playback

namespace Session

variable {c : Config} {bounds : DelayBounds} {t : Trace} {s : Session} {captured : List Snapshot}
  {steps : Nat}

theorem backed_load (h : s.playback.Backed) : s.load.1.playback.Backed :=
  h.uncounted (Playback.uncounted_of_eq rfl rfl) (congrArg History.captures s.execution.start_frame.1)

theorem backed_start (h : s.playback.Backed) : s.start.1.playback.Backed := by
  have hloaded := backed_load h
  rcases s.start_playback with hkept | hplayed
  · exact hkept ▸ hloaded
  · rw [hplayed]
    exact hloaded.still (Playback.uncounted_play _) (Playback.still_play _)

theorem IsPlaying.backed_programmed (hc : 0 < c.maxMicroSteps) (h : s.playback.Backed)
    (hplaying : IsPlaying c t s captured) : s.programmed.playback.Backed :=
  have hticketed : s.playback.ticketed.Backed := ⟨h.current, h.total⟩
  hticketed.byHand hc hplaying.playing

theorem backed_forward (hc : 0 < c.maxMicroSteps) (ht : s.playback.Tidy)
    (hstate : IsIdle c s ∨ ∃ t captured, IsPlaying c t s captured) (h : s.playback.Backed) :
    s.forward.1.playback.Backed := by
  rcases hstate with hidle | ⟨t, captured, hplaying⟩
  · have hunstarted := hidle.idle.started
    cases hread : Trace.read s.source with
    | error e =>
      rw [forward_of_refused hunstarted (hidle.load_of_error hread).2]
      exact backed_load h
    | ok t =>
      -- the run is loaded and held up before its first step
      obtain ⟨hloaded, hload⟩ := hidle.load_of_read hread
      have hprimed : IsPlaying c t s.primed [] := hloaded.still (Playback.still_pause _)
      have hbacked : s.primed.playback.Backed := ⟨(backed_load h).current, (backed_load h).total⟩
      rw [forward_of_loaded ht hload]
      exact hprimed.backed_programmed hc hbacked
  · have hstarted := hplaying.playing.started
    cases hcan : s.execution.history.canStepForward with
    | true =>
      rw [forward_of_ahead hstarted hcan, s.execution.history.stepForward_fst]
      exact ⟨h.current, h.total⟩
    | false =>
      rw [forward_of_last ht hstarted hcan]
      exact hplaying.backed_programmed hc h

theorem backed_back (h : s.playback.Backed) : s.back.1.playback.Backed := by
  have hcursor := s.execution.history.stepBack_fst
  unfold Session.back
  generalize s.execution.history.stepBack = moved at hcursor ⊢
  obtain ⟨history, shown⟩ := moved
  cases shown with
  | none => exact h
  | some snapshot =>
    have hcaptures : history.captures = s.execution.history.captures :=
      (congrArg History.captures hcursor :)
    have hmoved : ((s.withExecution { s.execution with history := history }).notify
        [.snapshot snapshot]).playback.Backed :=
      h.uncounted (Playback.uncounted_of_eq rfl rfl) hcaptures
    exact hmoved.still (Playback.uncounted_resumeFromCompleted _) (Playback.still_resumeFromCompleted _)

/-- No operation counts a step that captured nothing. -/
theorem backed_perform (hc : 0 < c.maxMicroSteps) (ht : s.playback.Tidy)
    (hstate : IsIdle c s ∨ ∃ t captured, IsPlaying c t s captured) (h : s.playback.Backed)
    (op : Operation) : (s.perform op).playback.Backed := by
  cases op with
  | setSource text =>
    show (s.setSource text).1.playback.Backed
    rcases s.setSource_fst text with hlocked | hchanged
    · rw [hlocked]
      exact h
    · rw [hchanged]
      exact ⟨h.current, h.total⟩
  | start => exact backed_start h
  | toggle =>
    show s.toggle.1.playback.Backed
    rcases s.toggle_playback with htoggled | hstarted
    · rw [htoggled]
      exact h.still s.playback.uncounted_toggle s.playback.still_toggle
    · rw [hstarted]
      exact backed_start h
  | forward => exact backed_forward hc ht hstate h
  | back => exact backed_back h
  | reset => exact ⟨Nat.zero_le _, Nat.zero_le _⟩
  | pause | setSpeed | setTurbo | drain | attend | elapseTo => exact ⟨h.current, h.total⟩
  | move m =>
    rcases hstate with hidle | ⟨t, captured, hplaying⟩
    · -- playback is off, so no loop takes a step
      obtain ⟨hstill, hstatus⟩ := Playback.still_move (w := Execution.workload) hidle.free hidle.off m
      refine h.still (Playback.uncounted_of_eq ?_ ?_) hstill
      · exact congrArg Status.currentStep hstatus
      · exact congrArg Status.totalSteps hstatus
    · exact h.move hc hplaying.free hplaying.playing m

/-- The induction is on the operations. -/
theorem backed_run (hc : 0 < c.maxMicroSteps) (hconf : Configured c bounds s)
    (hstate : IsIdle c s ∨ ∃ t captured, IsPlaying c t s captured) (h : s.playback.Backed)
    (ops : List Operation) : (s.run ops).playback.Backed := by
  induction ops generalizing s with
  | nil => exact h
  | cons op later ih =>
    exact ih (hconf.perform op) (idle_or_playing hc hstate [op])
      (backed_perform hc hconf.tidy hstate h op)

/-! ## What loops ask for -/

/-- Whether a loop asks for a step in an operation. -/
def asks (s : Session) : Operation → Bool
  | .move (.begin run) => s.playback.isLive run && s.playback.status.isRunning
  | .move (.wake l) => s.playback.isLive l.run && s.playback.status.isRunning
  | _ => false

/-- How many steps loops ask for in several operations. -/
def requests (s : Session) : List Operation → Nat
  | [] => 0
  | op :: later => (s.asks op).toNat + (s.perform op).requests later

/-- How many steps the loops of a session may ask for if its trace has `size` entries. -/
def quota (s : Session) (size : Nat) : Nat :=
  if s.playback.status.isRunning then
    if s.execution.player.isDone then 1 else size - s.execution.counters.totalSteps
  else 0

/-- Where nobody is at the gate, the loop that asks is the one that begins a step. -/
theorem asks_move_iff (hfree : s.playback.gate = .free) (m : Move) :
    s.asks (.move m) = true ↔ ∃ run, s.playback.LoopBegins (.move m) run := by
  constructor
  · intro h
    cases m with
    | begin run =>
      obtain ⟨hlive, hrunning⟩ := Bool.and_eq_true_iff.mp h
      exact ⟨run, (s.playback.loopBegins_begin_iff run).mpr ⟨hfree, hlive, hrunning⟩⟩
    | wake l =>
      obtain ⟨hlive, hrunning⟩ := Bool.and_eq_true_iff.mp h
      exact ⟨l.run, Playback.loopBegins_wake hfree hlive hrunning⟩
    | proceed | land => cases h
  · rintro ⟨run, h⟩
    have hgo := Bool.and_eq_true_iff.mpr h.live
    cases m with
    | begin other =>
      obtain rfl : other = run := Stepper.loop.inj (Option.some.inj h.2)
      exact hgo
    | wake l =>
      obtain rfl : l.run = run := Stepper.loop.inj (Option.some.inj h.2)
      exact hgo
    | proceed =>
      have hactor := h.2
      unfold Playback.actor? at hactor
      rw [hfree] at hactor
      cases hactor
    | land => exact nomatch h.2

theorem quota_of_not_running {size : Nat} (h : s.playback.status.isRunning ≠ true) :
    s.quota size = 0 := if_neg h

theorem IsPaced.quota_le (size : Nat) (h : IsPaced c t s captured steps) :
    s.quota size ≤ max 1 (size - steps) := by
  have htotal := h.paced.total
  unfold quota
  split
  · split
    · exact Nat.le_max_left _ _
    · omega
  · exact Nat.zero_le _

theorem IsPaced.quota_pos (hc : 0 < c.maxMicroSteps) (hpos : 0 < t.entries.size)
    (h : IsPaced c t s captured steps) (hrunning : s.playback.status.isRunning = true) :
    0 < s.quota t.entries.size := by
  unfold quota
  rw [if_pos hrunning]
  split
  · exact Nat.one_pos
  next hlive =>
    have hless := (h.paced.steps_le hc hpos).2 (Bool.eq_false_iff.mpr hlive)
    have htotal := h.paced.total
    omega

/-- A step that leaves more to do takes one off the quota. -/
theorem IsPaced.quota_of_more (hc : 0 < c.maxMicroSteps) (hpos : 0 < t.entries.size)
    (h : IsPaced c t s captured steps) (hrunning : s.playback.status.isRunning = true)
    (hmore : s.execution.step.2.2 = .more) {s' : Session}
    (hwork : s'.execution = s.execution.step.1) :
    1 + s'.quota t.entries.size ≤ s.quota t.entries.size := by
  have hleft := h.quota_pos hc hpos hrunning
  obtain ⟨-, hlive⟩ := Execution.live_of_more hmore
  obtain ⟨htotal, -⟩ := h.session.playing.step_of_live hc hlive
  obtain ⟨-, hgoes⟩ := h.paced.step_of_live hc hlive
  unfold quota at hleft ⊢
  rw [hrunning, if_pos rfl, hlive, if_neg Bool.false_ne_true] at hleft ⊢
  rw [hwork, hgoes hmore, if_neg Bool.false_ne_true, htotal]
  split <;> omega

/-- Each step that a loop asks for is taken off the quota. -/
theorem IsPaced.quota_move (hc : 0 < c.maxMicroSteps) (hpos : 0 < t.entries.size)
    (h : IsPaced c t s captured steps) (m : Move) :
    (s.asks (.move m)).toNat + (s.perform (.move m)).quota t.entries.size
      ≤ s.quota t.entries.size := by
  have hfree := h.session.free
  rcases s.playback.move_cases (w := Execution.workload) hfree m with
    ⟨hidle, hscene⟩ | ⟨run, q, hbegins, hscene, hlive, hrunning, hmove⟩
  · have hasks : s.asks (.move m) = false := Bool.eq_false_iff.mpr fun hasks =>
      (asks_move_iff hfree m).mp hasks |>.elim hidle
    have hexecution : (s.perform (.move m)).execution = s.execution := hscene.work
    have hstatus : (s.perform (.move m)).playback.status = s.playback.status := hscene.status
    unfold quota
    rw [hasks, hexecution, hstatus]
    exact Nat.le_of_eq (Nat.zero_add _)
  · have hasks : s.asks (.move m) = true := (asks_move_iff hfree m).mpr ⟨run, hbegins⟩
    have hon := hbegins.live.2
    rw [Playback.goOn_of_running Execution.instant_workload (hscene.gate.trans hfree) hlive hrunning]
      at hmove
    rw [hasks, Bool.toNat_true]
    -- after the last step the run is over, and no loop of it asks for another one
    have hlast : (s.playback.move Execution.workload m).status.isRunning ≠ true →
        1 + (s.perform (.move m)).quota t.entries.size ≤ s.quota t.entries.size := fun hover => by
      have hspent : (s.perform (.move m)).quota t.entries.size = 0 := quota_of_not_running hover
      rw [hspent]
      exact h.quota_pos hc hpos hon
    cases houtcome : q.outcome Execution.workload with
    | more =>
      rw [houtcome] at hmove
      have hmore : s.execution.step.2.2 = .more :=
        (congrArg (fun x : Execution => x.step.2.2) hscene.work).symm.trans houtcome
      have hwork : (s.perform (.move m)).execution = s.execution.step.1 :=
        (congrArg Playback.work hmove).trans (congrArg (fun x : Execution => x.step.1) hscene.work)
      exact h.quota_of_more hc hpos hon hmore hwork
    | finished =>
      rw [houtcome] at hmove
      refine hlast fun hstill => ?_
      rw [hmove] at hstill
      exact Bool.false_ne_true ((Status.isRunning_iff.mp hstill).2.2.symm.trans
        (Playback.completed_complete _))
    | failed e =>
      rw [houtcome] at hmove
      refine hlast ?_
      rw [hmove]
      exact Status.not_isRunning_of_off rfl

/-- Loops that are left alone ask for no more than their quota. The induction is on the operations. -/
theorem IsPaced.requests_le (hc : 0 < c.maxMicroSteps) (hpos : 0 < t.entries.size)
    (h : IsPaced c t s captured steps) {alone : List Operation}
    (hown : ∀ op ∈ alone, op.isOwn = true) : s.requests alone ≤ s.quota t.entries.size := by
  induction alone generalizing s captured steps with
  | nil => exact Nat.zero_le _
  | cons op later ih =>
    have hop := hown op List.mem_cons_self
    have hfirst : (s.asks op).toNat + (s.perform op).quota t.entries.size
        ≤ s.quota t.entries.size := by
      cases op with
      | move m => exact h.quota_move hc hpos m
      | attend | elapseTo => exact Nat.le_of_eq (Nat.zero_add _)
      | _ => cases hop
    have hne : op ≠ .reset := fun he => by
      rw [he] at hop
      cases hop
    have hrest := ih (h.perform hc hne) fun other hother => hown other (List.mem_cons_of_mem op hother)
    unfold requests
    omega

/-- The loops of an idle session ask for nothing. -/
theorem IsIdle.requests_eq (h : IsIdle c s) {alone : List Operation}
    (hown : ∀ op ∈ alone, op.isOwn = true) : s.requests alone = 0 := by
  induction alone generalizing s with
  | nil => rfl
  | cons op later ih =>
    have hop := hown op List.mem_cons_self
    have hstarts : op.starts = false := by
      cases op <;> first | rfl | cases hop
    have hasks : s.asks op = false := by
      have hoff : s.playback.status.isRunning = false :=
        Bool.eq_false_iff.mpr (Status.not_isRunning_of_off h.off)
      unfold asks
      split <;> simp [hoff]
    have hidle : IsIdle c (s.perform op) := h.perform fun hs => nomatch hstarts.symm.trans hs
    unfold requests
    rw [hasks, ih hidle fun other hother => hown other (List.mem_cons_of_mem op hother)]
    rfl

end Session

open Session

/-- A ledger of a session that keeps within a trace of `size` entries. -/
structure Ledger.Within (size : Nat) (l : Ledger) : Prop where
  /-- The player has gone on or come to its end at most once an entry. -/
  steps_le : l.steps ≤ size
  /-- The counters tell how often. -/
  total_eq : l.session.execution.counters.totalSteps = l.steps
  captures_eq : l.session.execution.history.captures = l.captured.length
  captured_lt : l.captured.length < size
  /-- The status tells of no more steps than there were captures. -/
  counted_le : l.session.playback.status.totalSteps ≤ l.captured.length
  /-- Steps taken one after the other come to one that leaves no more to do. -/
  plays_out : ∃ k x outcome, Execution.PlaysOut k l.session.execution x outcome
    ∧ k ≤ max 1 (size - l.steps)
  /-- Loops that are left alone ask for no more. -/
  requests_le : ∀ alone : List Operation, (∀ op ∈ alone, op.isOwn = true) →
    l.session.requests alone ≤ max 1 (size - l.steps)

namespace Ledger

variable {c : Config} {t : Trace} {l : Ledger}

theorem Kept.within (hc : 0 < c.maxMicroSteps) (h : Kept c l) (hread : Trace.read l.source = .ok t)
    (hbacked : l.session.playback.Backed) : l.Within t.entries.size := by
  have hpos := Trace.size_pos_of_read hread
  have hcaptures := h.gathered_eq.2
  have hcounted : l.session.playback.status.totalSteps ≤ l.captured.length :=
    hcaptures ▸ hbacked.total
  have htotal := h.totalSteps_eq
  cases h with
  | idle hidle hnothing hnone _ =>
    have hfinished : l.session.execution.step.2.2 = .finished := by
      rw [Execution.step_of_not_started hidle.idle.started]
    exact {
      steps_le := hnone ▸ Nat.zero_le _
      total_eq := htotal
      captures_eq := hcaptures.symm
      captured_lt := hnothing ▸ hpos
      counted_le := hcounted
      plays_out := ⟨1, _, _, Execution.playsOut_of_finished hfinished, Nat.le_max_left _ _⟩
      requests_le := fun alone hown => hidle.requests_eq hown ▸ Nat.zero_le _ }
  | playing t' hread' hpaced =>
    obtain rfl : t' = t := Except.ok.inj (hread'.symm.trans hread)
    exact {
      steps_le := (hpaced.paced.steps_le hc hpos).1
      total_eq := htotal
      captures_eq := hcaptures.symm
      captured_lt := hpaced.session.playing.length_lt hc hpos
      counted_le := hcounted
      plays_out := hpaced.paced.exists_playsOut hc hpos
      requests_le := fun alone hown =>
        Nat.le_trans (hpaced.requests_le hc hpos hown) (hpaced.quota_le _) }

end Ledger

/-- Take any session with a valid configuration and do anything with it, taking steps by its loops and by
hand as they come: as long as the run plays a trace, it has taken no more steps than the trace has entries
and captured fewer snapshots, and both counts of steps, that of the counters and that of the status, keep
to this. From there on steps taken one after the other come to one that leaves no more to do, and loops
that are left alone come to ask for no more, after as many as there are entries left, or one if there are
none. So whoever loads and starts a trace of a new session and waits for its loop waits until that has
ended, and the loop has asked for no more steps than there are entries. -/
theorem playback_within_trace {c : Config} {s : Session} (hnew : Session.new? c = .ok s) :
    (∀ (ops : List Operation) (t : Trace),
      let l := (Ledger.opened s).run ops
      l.session = s.run ops ∧ (Trace.read l.source = .ok t → l.Within t.entries.size)) ∧
    ∀ (source : String) (t : Trace), Trace.read source = .ok t →
      let started := s.run [.setSource source, .start]
      (started.await none).2 = true ∧ ∃ alone : List Operation, (∀ op ∈ alone, op.isOwn = true)
        ∧ (started.await none).1 = started.run alone ∧ started.requests alone ≤ t.entries.size := by
  obtain ⟨hidle, hc⟩ := isIdle_of_new? hnew
  constructor
  · intro ops t l
    obtain ⟨bounds, hs⟩ := eq_of_new? hnew
    have hsession : l.session = s.run ops := Ledger.run_session _ ops
    have hconf : Configured c bounds s := hs ▸ configured_new c bounds
    have hfirst : s.playback.Backed := hs ▸ ⟨Nat.zero_le _, Nat.zero_le _⟩
    have hbacked := backed_run hc hconf (Or.inl hidle) hfirst ops
    exact ⟨hsession, fun hread =>
      ((Ledger.kept_opened hnew).run hc ops).within hc hread (hsession ▸ hbacked)⟩
  · intro source t hread started
    obtain ⟨hset, hread', hsole, hawait⟩ := soleLoop_of_new hnew hread
    have hpos := Trace.size_pos_of_read hread
    have hstarts : Operation.starts .start = true := rfl
    have hpaced := hset.paced_perform hc hread' hstarts
    obtain ⟨k, y, outcome, hk, hplays, -⟩ := hpaced.session.playing.exists_playsOut hc hpos
    obtain ⟨hended, -⟩ := await_playsOut hsole hawait hplays (hpaced.session.player_length ▸ hk)
    obtain ⟨alone, hown, hrun⟩ := started.exists_run_await none
    refine ⟨hended, alone, hown, hrun, ?_⟩
    have hrequests := hpaced.requests_le hc hpos hown
    have hquota := hpaced.quota_le t.entries.size
    exact Nat.le_trans hrequests (Nat.le_trans hquota (by omega))

/-- A configuration in which each small step is a step of its own. -/
def Config.stepwise : Config := { Config.standard with maxMicroSteps := 1 }

/-- A session with it. -/
def Session.stepwise : Session :=
  ⟨.new Config.stepwise.playback Session.standard.playback.bounds (.new Config.stepwise)⟩

/-- Four entries are played in four steps: one by the loop of the first run, one by hand, and the last two
by the loop of a second run, which wakes beside that of the first. The last step captures nothing. -/
theorem budget_of_threeLines :
    let l := (Ledger.opened .stepwise).run
      [.setSource Trace.threeLinesText, .start, .move (.begin 1), .forward, .toggle]
    let alone : List Operation :=
      [.move (.begin 2), .elapseTo 500, .move (.wake ⟨1, 500⟩), .move (.wake ⟨2, 500⟩)]
    let ended := l.run alone
    new? .stepwise = .ok .stepwise
    ∧ l.steps = 2 ∧ l.session.requests alone = 2 ∧ l.Within 4
    ∧ ended.steps = 4 ∧ ended.captured.length = 3 ∧ ended.Within 4
    ∧ ended.session.playback.status.completed = true := by
  intro l alone ended
  have hnew : new? .stepwise = .ok .stepwise := by rfl
  have hsource : l.source = Trace.threeLinesText := by decide +kernel
  have hsource' : ended.source = Trace.threeLinesText := by decide +kernel
  have hwithin : ∀ ops, ((Ledger.opened .stepwise).run ops).source = Trace.threeLinesText →
      ((Ledger.opened .stepwise).run ops).Within 4 := fun ops hops =>
    ((playback_within_trace hnew).1 ops .threeLines).2 (hops ▸ Trace.read_threeLinesText)
  have hended : ended = (Ledger.opened .stepwise).run
      ([.setSource Trace.threeLinesText, .start, .move (.begin 1), .forward, .toggle] ++ alone) :=
    (List.foldl_append ..).symm
  refine ⟨hnew, by decide +kernel, by decide +kernel, hwithin _ hsource, by decide +kernel,
    by decide +kernel, ?_, by decide +kernel⟩
  rw [hended]
  exact hwithin _ (hended ▸ hsource')

end Retrace
