import Retrace.Proofs.Playback.Touch
/-!
# A run that is over stays over

Nothing but `play` makes a run live, and the run it makes live is a new one. Everything else leaves the
latest run what it is, or cancels it, holds it up, or ends it (`Unrevived`). So of two moments in the
life of playback the later one has no run live that was cancelled in the earlier one, and whatever runs
in it ran before or is newer (`Later`).
-/

namespace Retrace

namespace Playback

variable {σ : Type} {w : Workload σ} {p q r : Playback σ}

/-! ## What starts no run -/

/-- Between the two no run was started, and neither did the latest one become live again nor go on
after it was held up or over. -/
structure Unrevived (p q : Playback σ) : Prop where
  run_eq : q.run = p.run
  live : q.cancelled = false → p.cancelled = false
  running : q.status.isRunning = true → p.status.isRunning = true

theorem Unrevived.refl (p : Playback σ) : p.Unrevived p := ⟨rfl, id, id⟩

theorem Unrevived.trans (h : p.Unrevived q) (h' : q.Unrevived r) : p.Unrevived r :=
  ⟨h'.run_eq.trans h.run_eq, fun hl => h.live (h'.live hl), fun hr => h.running (h'.running hr)⟩

theorem unrevived_pause (p : Playback σ) : p.Unrevived p.pause :=
  ⟨rfl, id, fun h => absurd h (Status.not_isRunning_of_paused rfl)⟩

theorem unrevived_stop (p : Playback σ) : p.Unrevived p.stop :=
  ⟨rfl, nofun, fun h => absurd h (Status.not_isRunning_of_off rfl)⟩

theorem unrevived_reset (p : Playback σ) : p.Unrevived p.reset :=
  ⟨rfl, nofun, fun h => absurd h (Status.not_isRunning_of_off rfl)⟩

theorem unrevived_resumeFromCompleted (p : Playback σ) : p.Unrevived p.resumeFromCompleted.1 := by
  unfold resumeFromCompleted
  split
  · exact ⟨rfl, id, fun h => absurd h (Status.not_isRunning_of_paused rfl)⟩
  · exact .refl p

theorem unrevived_complete (p : Playback σ) : p.Unrevived p.complete := by
  unfold complete
  split
  · exact .refl p
  · exact ⟨rfl, id, fun h => absurd h (Status.not_isRunning_of_off rfl)⟩

theorem unrevived_fail (p : Playback σ) (e : SessionFailure) : p.Unrevived (p.fail e) := by
  have hnotified : p.Unrevived (p.notify (.failed e)) := ⟨rfl, id, id⟩
  exact hnotified.trans (unrevived_stop _)

theorem unrevived_afterLoopStep (p : Playback σ) (run : Nat) (outcome : StepOutcome) :
    p.Unrevived (p.afterLoopStep run outcome) := by
  unfold afterLoopStep
  split
  · cases outcome with
    | more => exact ⟨rfl, id, id⟩
    | finished => exact p.unrevived_complete
    | failed e => exact p.unrevived_fail e
  · exact .refl p

theorem unrevived_afterHandStep (p : Playback σ) (ticket : Nat) (outcome : StepOutcome) :
    p.Unrevived (p.afterHandStep ticket outcome) := by
  cases outcome with
  | more => exact ⟨rfl, id, id⟩
  | finished => exact p.unrevived_complete.trans ⟨rfl, id, id⟩
  | failed e => exact (p.unrevived_fail e).trans ⟨rfl, id, id⟩

/-- Counting a step changes no flag. -/
theorem unrevived_settle (p : Playback σ) (holder : Stepper) (outcome : StepOutcome)
    (waiting : List Stepper) : p.Unrevived (p.settle holder outcome waiting) := by
  have hcounted : p.Unrevived { p with
      status := if outcome = .more then p.status.countStep else p.status
      gate := .released waiting } := by
    split <;> exact ⟨rfl, id, id⟩
  refine hcounted.trans ?_
  cases holder with
  | loop run => exact unrevived_afterLoopStep _ run outcome
  | hand ticket => exact unrevived_afterHandStep _ ticket outcome

theorem unrevived_takeStep (p : Playback σ) (holder : Stepper) (waiting : List Stepper) :
    p.Unrevived (p.takeStep w holder waiting) := by
  unfold takeStep
  generalize w p.status.currentStep p.work = attempt
  simp only
  split
  · have htaken : p.Unrevived { p with
        work := attempt.work
        log := p.log ++ attempt.events.toArray } := ⟨rfl, id, id⟩
    exact htaken.trans (unrevived_settle _ holder _ waiting)
  · exact ⟨rfl, id, id⟩

theorem unrevived_approach (p : Playback σ) (s : Stepper) : p.Unrevived (p.approach w s) := by
  unfold approach
  split
  · exact p.unrevived_takeStep s []
  · exact ⟨rfl, id, id⟩
  · exact ⟨rfl, id, id⟩

theorem unrevived_goOn (p : Playback σ) (run : Nat) : p.Unrevived (p.goOn w run) := by
  unfold goOn
  split
  · exact p.unrevived_approach (.loop run)
  · exact .refl p

theorem unrevived_proceed (p : Playback σ) : p.Unrevived (p.proceed w) := by
  unfold proceed
  split
  · exact p.unrevived_takeStep _ _
  · split
    · exact p.unrevived_takeStep _ _
    · simp only
      split <;> exact ⟨rfl, id, id⟩
  · exact .refl p

theorem unrevived_move (p : Playback σ) (m : Move) : p.Unrevived (p.move w m) := by
  cases m with
  | begin run =>
    have hbegun : p.Unrevived { p with fresh := p.fresh.erase run } := ⟨rfl, id, id⟩
    exact hbegun.trans (unrevived_goOn _ run)
  | wake s =>
    have hawake : p.Unrevived { p with sleeping := p.sleeping.erase s } := ⟨rfl, id, id⟩
    refine hawake.trans ?_
    show Unrevived _ (p.wake w s)
    unfold wake
    simp only
    split
    · exact ⟨rfl, id, id⟩
    · exact unrevived_goOn _ s.run
  | proceed => exact p.unrevived_proceed
  | land =>
    show p.Unrevived p.land
    unfold land
    split
    · exact p.unrevived_settle _ _ _
    · exact .refl p

theorem unrevived_requestStep (p : Playback σ) : p.Unrevived (p.requestStep w).1 := by
  have hticket : p.Unrevived { p with tickets := p.tickets + 1 } := ⟨rfl, id, id⟩
  refine hticket.trans ?_
  unfold requestStep
  simp only
  split
  · exact ⟨rfl, id, id⟩
  · split
    · exact (unrevived_pause _).trans (unrevived_approach _ _)
    · exact unrevived_approach _ _

/-! ## What may start one -/

/-- The second is playback as it may be some time after the first. -/
structure Later (p q : Playback σ) : Prop where
  run_le : p.run ≤ q.run
  live : ∀ run, q.isLive run = true → p.isLive run = true ∨ p.run < run
  running : q.status.isRunning = true → p.status.isRunning = true ∨ p.run < q.run

theorem Later.refl (p : Playback σ) : p.Later p := ⟨Nat.le_refl _, fun _ => Or.inl, Or.inl⟩

theorem Later.trans (h : p.Later q) (h' : q.Later r) : p.Later r where
  run_le := Nat.le_trans h.run_le h'.run_le
  live run hlive := by
    rcases h'.live run hlive with hlive | hnewer
    · exact h.live run hlive
    · exact Or.inr (Nat.lt_of_le_of_lt h.run_le hnewer)
  running hrunning := by
    rcases h'.running hrunning with hrunning | hnewer
    · rcases h.running hrunning with hrunning | hnewer
      · exact Or.inl hrunning
      · exact Or.inr (Nat.lt_of_lt_of_le hnewer h'.run_le)
    · exact Or.inr (Nat.lt_of_le_of_lt h.run_le hnewer)

theorem Unrevived.later (h : p.Unrevived q) : p.Later q where
  run_le := Nat.le_of_eq h.run_eq.symm
  live run hlive := by
    rw [isLive_iff] at hlive
    exact Or.inl (isLive_iff.mpr ⟨hlive.1.trans h.run_eq, h.live hlive.2⟩)
  running hrunning := Or.inl (h.running hrunning)

/-- A playback that is started has a new run, the only one that is live. -/
theorem play_of_open (h : p.status.completed = false) :
    p.play.2 = true ∧ p.play.1.run = p.run + 1 ∧ p.play.1.isLive (p.run + 1) = true := by
  unfold play isLive
  rw [h, if_neg Bool.false_ne_true]
  refine ⟨rfl, rfl, ?_⟩
  simp [enterState, notify]

theorem later_play (p : Playback σ) : p.Later p.play.1 := by
  cases hcompleted : p.status.completed with
  | true =>
    unfold play
    rw [hcompleted, if_pos rfl]
    exact .refl p
  | false =>
    obtain ⟨-, hrun, -⟩ := play_of_open hcompleted
    refine ⟨by omega, fun run hlive => Or.inr ?_, fun _ => Or.inr (by omega)⟩
    have hnew := (isLive_iff.mp hlive).1
    omega

/-- If playing changed the latest run, it started one. -/
theorem started_play (h : p.run < p.play.1.run) :
    p.play.1.run = p.run + 1 ∧ p.play.1.isLive (p.run + 1) = true := by
  cases hcompleted : p.status.completed with
  | true =>
    unfold play at h
    rw [hcompleted, if_pos rfl] at h
    exact absurd h (Nat.lt_irrefl _)
  | false => exact (play_of_open hcompleted).2

theorem started_toggle (h : p.run < p.toggle.run) :
    p.toggle.run = p.run + 1 ∧ p.toggle.isLive (p.run + 1) = true := by
  revert h
  unfold toggle
  split
  · exact started_play (p := p.reset)
  · split
    · exact fun h => absurd h (Nat.lt_irrefl _)
    · exact started_play

theorem later_toggle (p : Playback σ) : p.Later p.toggle := by
  unfold toggle
  split
  · exact p.unrevived_reset.later.trans p.reset.later_play
  · split
    · exact p.unrevived_pause.later
    · exact p.later_play

end Playback

end Retrace
