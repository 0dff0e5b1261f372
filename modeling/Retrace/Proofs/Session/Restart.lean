import Retrace.Proofs.Playback.Order
import Retrace.Proofs.Playback.SoleLoop
import Retrace.Proofs.Session.Configured
import Retrace.Proofs.Session.Captures
/-!
# Toggling a completed session

A completed session that is toggled resets its playback and starts a run of it; but its execution is not
reset with it. So the loop of that run finds nothing more to play in its first step, and playback is
completed again with its counters at zero, while the history, the call tree and the player are still
those of the run before (`toggle_of_completed`). To play the program again one has to reset the session
and to start it (`toggle_is_no_restart`).

Loops of earlier runs may still be about to begin. They come first and end at once (`advance_stale`), so
whoever waits for the new loop waits for one move more than there are of them.
-/

namespace Retrace

namespace Playback

variable {σ : Type} {w : Workload σ} {p : Playback σ}

/-- A loop whose run was replaced ends as it begins. -/
theorem begin_of_stale {run : Nat} (h : run ≠ p.run) :
    p.begin w run = { p with fresh := p.fresh.erase run } := by
  have hstale : ({ p with fresh := p.fresh.erase run } : Playback σ).isLive run = false := by
    unfold isLive
    simp [h]
  unfold begin
  exact goOn_of_not (by rw [hstale, Bool.false_and])

/-- The loops that are about to begin before the latest one end one after the other. The induction is on
them. -/
theorem advance_stale (stale : List Nat) (p : Playback σ) (hfree : p.gate = .free)
    (hfresh : p.fresh = stale ++ [p.run]) (hstale : ∀ run ∈ stale, run ≠ p.run) (fuel : Nat) :
    p.advance w (fun q => !q.hasLoop p.run) none (fuel + stale.length)
      = ({ p with fresh := [p.run] } : Playback σ).advance w (fun q => !q.hasLoop p.run) none fuel := by
  induction stale generalizing p with
  | nil =>
    have hsame : ({ p with fresh := [p.run] } : Playback σ) = p := by
      rw [← List.nil_append [p.run], ← hfresh]
    rw [hsame]
    rfl
  | cons run stale ih =>
    have hne : run ≠ p.run := hstale run List.mem_cons_self
    have hthere : (!p.hasLoop p.run) = false := by
      unfold hasLoop
      simp [hfresh]
    have hnext : p.next = .now (.begin run) := next_of_fresh hfree hfresh
    have hmove : p.move w (.begin run) = { p with fresh := stale ++ [p.run] } := by
      show p.begin w run = _
      rw [begin_of_stale hne, hfresh, List.cons_append, List.erase_cons_head]
    have hadvance : p.advance w (fun q => !q.hasLoop p.run) none (fuel + stale.length + 1)
        = (p.move w (.begin run)).advance w (fun q => !q.hasLoop p.run) none (fuel + stale.length) :=
      advance_of_now hthere hnext none _
    rw [hmove] at hadvance
    exact hadvance.trans (ih { p with fresh := stale ++ [p.run] } hfree rfl
      fun other hother => hstale other (List.mem_cons_of_mem run hother))

/-- The latest loop takes its first step, finds no more to do and ends. -/
theorem advance_finished (hw : w.Instant) (hfree : p.gate = .free) (hfresh : p.fresh = [p.run])
    (hsleeping : ∀ s ∈ p.sleeping, s.run ≠ p.run) (hlive : p.cancelled = false)
    (hrunning : p.status.isRunning = true) (hfinished : p.outcome w = .finished) (fuel : Nat) :
    p.advance w (fun q => !q.hasLoop p.run) none (fuel + 1)
      = ({ p with fresh := [] }.stepped w).complete ∧
    (({ p with fresh := [] } : Playback σ).stepped w).complete.hasLoop p.run = false := by
  have hthere : (!p.hasLoop p.run) = false := by
    unfold hasLoop
    simp [hfresh]
  have hmove : p.move w (.begin p.run)
      = (({ p with fresh := [] } : Playback σ).stepped w).complete := by
    have hlast : p.fresh.erase p.run = [] := by simp [hfresh]
    have hgone := goOn_of_running (p := { p with fresh := [] }) hw hfree
      (isLive_iff.mpr ⟨rfl, hlive⟩) hrunning
    have houtcome : ({ p with fresh := [] } : Playback σ).outcome w = .finished := hfinished
    rw [houtcome] at hgone
    show ({ p with fresh := p.fresh.erase p.run } : Playback σ).goOn w p.run = _
    rw [hlast]
    exact hgone
  have hended : (({ p with fresh := [] } : Playback σ).stepped w).complete.hasLoop p.run = false := by
    have hsame := (({ p with fresh := [] } : Playback σ).sameLoops_stepped (w := w)).trans
      (sameLoops_complete _)
    unfold hasLoop
    rw [hsame.fresh, hsame.sleeping, hsame.gate, hfree]
    simpa [Gate.steppers] using hsleeping
  refine ⟨?_, hended⟩
  rw [advance_of_now hthere (next_of_fresh hfree hfresh), hmove]
  exact advance_of_holds (by rw [hended]; rfl) none fuel

end Playback

namespace Session

variable {s : Session}

/-- A completed session that is toggled has its playback reset, and a new run of it is about to begin. -/
theorem toggle_of_done (hstarted : s.execution.started = true)
    (hcompleted : s.playback.status.completed = true) :
    s.toggle.1 = ⟨s.playback.reset.play.1⟩ := by
  unfold Session.toggle Playback.toggle
  rw [if_pos hstarted, if_pos hcompleted]

/-- Whoever waits for a run that was just started, with nothing more to play, waits until its loop has
taken one step and completed playback. -/
theorem await_of_done {p : Playback Execution} (hs : s.playback = p) (hfree : p.gate = .free)
    {stale : List Nat} (hfresh : p.fresh = stale ++ [p.run]) (hstale : ∀ run ∈ stale, run ≠ p.run)
    (hsleeping : ∀ s ∈ p.sleeping, s.run ≠ p.run) (hlive : p.cancelled = false)
    (hrunning : p.status.isRunning = true) (hawaitable : p.awaitable = some p.run)
    (hdone : p.work.player.isDone = true) :
    s.await none = (⟨Playback.complete { p with
      fresh := []
      awaitable := none
      work := { p.work with counters := p.work.counters.finish } }⟩, true) := by
  have hstep := Execution.step_of_isDone hdone
  have hpatience : stale.length + 1 ≤ s.patience 0 := by
    unfold patience
    rw [hs, hfresh, List.length_append, List.length_singleton]
    omega
  obtain ⟨fuel, hfuel⟩ := Nat.exists_eq_add_of_le hpatience
  have hfuel : s.patience 0 = fuel + 1 + stale.length := by omega
  have hcame := Playback.advance_stale (w := Execution.workload) stale
    { p with awaitable := none } hfree hfresh hstale (fuel + 1)
  have hfinished : ({ p with awaitable := none, fresh := [p.run] } : Playback Execution).outcome
      Execution.workload = .finished := by
    show p.work.step.2.2 = .finished
    rw [hstep]
  obtain ⟨hover, hended⟩ := Playback.advance_finished (p := { p with
    awaitable := none, fresh := [p.run] }) Execution.instant_workload hfree rfl hsleeping hlive
    hrunning hfinished fuel
  have hstepped : Playback.stepped Execution.workload ({ p with
      awaitable := none, fresh := [] } : Playback Execution) = { p with
        fresh := []
        awaitable := none
        work := { p.work with counters := p.work.counters.finish } } := by
    unfold Playback.stepped Execution.workload
    simp only [hstep]
    simp
  have hran : ({ p with awaitable := none } : Playback Execution).advance Execution.workload
      (fun q => !q.hasLoop p.run) none (s.patience 0) = Playback.complete { p with
        fresh := []
        awaitable := none
        work := { p.work with counters := p.work.counters.finish } } := by
    rw [hfuel, ← hstepped]
    exact hcame.trans hover
  rw [hstepped] at hended
  unfold Session.await Playback.await
  rw [hs, hawaitable]
  simp only [Option.map_none, Option.getD_none, hran, hended]
  rfl

end Session

open Session in
/-- Take any session with a valid configuration whose playback has completed after some operations, toggle
it and wait for playback. Playback ends, and it is completed again with both its counters at zero.
Observers are told of its states and of the completion, but they are shown no snapshot and no call; and
the execution is what it was, with the history, the call tree, the player and the counters of the run
before, which count as finished. -/
theorem toggle_of_completed {c : Config} {s : Session} (hnew : new? c = .ok s)
    (before : List Operation) (hcompleted : (s.run before).playback.status.completed = true) :
    let u := s.run before
    let z := u.toggle.1.await none
    let stopped := { u.playback.status with state := .stopped, playing := false, paused := false }
    let zeroed := { stopped with state := .reset, currentStep := 0, totalSteps := 0, completed := false }
    let ended := { zeroed with state := .completed, completed := true }
    (z.2 = true ∧ z.1.playback.status = ended) ∧
    z.1.execution = { u.execution with counters := u.execution.counters.finish } ∧
    z.1.playback.log.toList = u.playback.log.toList ++ [.status stopped, .status zeroed,
      .status { zeroed with state := .playing, playing := true }, .status ended, .completed] := by
  intro u z stopped zeroed ended
  obtain ⟨bounds, rfl⟩ := eq_of_new? hnew
  obtain ⟨hidle, hc⟩ := isIdle_of_new? hnew
  have hconf : Configured c bounds u := (configured_new c bounds).run before
  obtain ⟨t, captured, hplaying⟩ : ∃ t captured, IsPlaying c t u captured := by
    rcases idle_or_playing hc (Or.inl hidle) before with hidle | hplaying
    · exact nomatch hcompleted.symm.trans hidle.not_completed
    · exact hplaying
  have hdone : u.execution.player.isDone = true := hplaying.done_of_completed hcompleted
  -- the new run is about to begin, after those that were about to begin before
  have htoggled := toggle_of_done hplaying.playing.started hcompleted
  have holder : ∀ run ∈ u.playback.loops, run ≠ u.playback.run + 1 := by
    intro run hrun
    have hle := hconf.tidy.started run hrun
    omega
  have hfresh : u.playback.reset.play.1.fresh = u.playback.fresh ++ [u.playback.run + 1] := rfl
  have hawaited := await_of_done (congrArg Session.playback htoggled) hplaying.free hfresh
    (fun run hrun => holder run (List.mem_append_left _ hrun))
    (fun sleeper hsleeper => holder _ (List.mem_append_right _ (List.mem_map_of_mem hsleeper)))
    rfl rfl rfl hdone
  have hz : z = _ := hawaited
  rw [hz]
  refine ⟨⟨rfl, rfl⟩, rfl, ?_⟩
  show (((((u.playback.log.push _).push _).push _).push _).push _).toList = _
  simp only [Array.toList_push, List.append_assoc]
  rfl

/-- The snapshot that observers are shown by an event, if it shows one. -/
def Event.snapshot? : Event → Option Snapshot
  | snapshot s => some s
  | _ => none

/-- A session that has played three lines to the end, whose observers have taken notice of it. -/
def Session.played : Session := Session.standard.run
  [.setSource Trace.threeLinesText, .start, .move (.begin 1), .forward, .forward, .drain]

/-- It is toggled: playback is completed at once, and the history is that of the run before. -/
theorem toggle_of_played :
    let z := Session.played.toggle.1.await none
    Session.new? .standard = .ok .standard ∧ Session.played.playback.status.completed = true
    ∧ z.2 = true ∧ z.1.playback.status.currentStep = 0
    ∧ z.1.execution.history.retained = Session.played.execution.history.retained := by
  intro z
  have hnew : Session.new? .standard = .ok .standard := by rfl
  have hcompleted : Session.played.playback.status.completed = true := by decide +kernel
  obtain ⟨⟨hended, hstatus⟩, hexecution, -⟩ := toggle_of_completed hnew
    [.setSource Trace.threeLinesText, .start, .move (.begin 1), .forward, .forward, .drain] hcompleted
  exact ⟨hnew, hcompleted, hended, congrArg Status.currentStep hstatus,
    congrArg (fun x => x.history.retained) hexecution⟩

/-- Toggling it shows none of the two snapshots that were captured and leaves the counters at zero, where
resetting and starting it shows both and counts two steps. -/
theorem toggle_is_no_restart :
    let toggled := (Session.played.toggle.1.await none).1
    let restarted := (Session.played.reset.start.1.await none).1
    (Session.played.playback.status.completed = true
      ∧ Session.played.execution.history.captures = 2) ∧
    (toggled.playback.status.completed = true ∧ toggled.execution.history.captures = 2
      ∧ (toggled.playback.log.toList.filterMap Event.snapshot?).length = 0
      ∧ toggled.playback.status.currentStep = 0 ∧ toggled.playback.status.totalSteps = 0) ∧
    (restarted.playback.status.completed = true ∧ restarted.execution.history.captures = 2
      ∧ (restarted.playback.log.toList.filterMap Event.snapshot?).length = 2
      ∧ restarted.playback.status.currentStep = 2 ∧ restarted.playback.status.totalSteps = 2) := by
  decide +kernel

end Retrace
