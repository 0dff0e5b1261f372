import Retrace.Proofs.Playback.Reports
/-!
# A single loop goes on by itself

While the loop of the latest run is the only one and playback is on (`SoleLoop`), something is always
going to happen: the loop has not begun, or it is asleep and wakes when its time has come. Within two
moves it takes a step (`SoleLoop.exists_round`), after which it is asleep again or has ended. Steps
that take no time leave nothing to wait for in between, so the moves that playback needs to come to its
end are bounded by the steps there are to take.
-/

namespace Retrace

namespace Playback

variable {σ : Type} {w : Workload σ} {p : Playback σ}

/-- Playback that is on, and whose only loop is that of the latest run, outside the gate. -/
structure SoleLoop (p : Playback σ) : Prop where
  free : p.gate = .free
  live : p.cancelled = false
  running : p.status.isRunning = true
  waits : (p.fresh = [p.run] ∧ p.sleeping = []) ∨
    ∃ alarm, p.fresh = [] ∧ p.sleeping = [⟨p.run, alarm⟩]

/-- What an attempt of the only loop comes to. -/
structure Round (p : Playback σ) (a : Attempt σ) (p' : Playback σ) : Prop where
  run_eq : p'.run = p.run
  work_eq : p'.work = a.work
  goes_on : a.outcome = .more → p'.SoleLoop
  ends : a.outcome ≠ .more → p'.hasLoop p.run = false
  completes : a.outcome = .finished → p'.status.completed = true
  reports : p.Reports p' (a.events.filter Event.isResult ++ p.verdict a.outcome)

theorem hasLoop_of_nil (p : Playback σ) (run : Nat) (hfree : p.gate = .free)
    (hfresh : p.fresh = []) (hsleeping : p.sleeping = []) : p.hasLoop run = false := by
  unfold hasLoop
  rw [hfree, hfresh, hsleeping]
  rfl

/-- The loop takes a step when it has been taken off the lists of those that wait. -/
theorem round_takeStep (hw : w.Instant) (hlive : p.cancelled = false)
    (hrunning : p.status.isRunning = true) (hfresh : p.fresh = []) (hsleeping : p.sleeping = []) :
    Round p (w p.status.currentStep p.work) (p.takeStep w (.loop p.run) []) := by
  have hopen : p.status.completed = false := by
    unfold Status.isRunning at hrunning
    simpa using (Bool.and_eq_true_iff.mp hrunning).2
  have hheeds : p.heeds (.loop p.run) = true := isLive_iff.mpr ⟨rfl, hlive⟩
  have hreports := p.reports_takeStep (w := w) (.loop p.run) []
  rw [hw p.status.currentStep p.work, if_pos rfl, if_pos hheeds] at hreports
  unfold takeStep at hreports ⊢
  simp only [hw p.status.currentStep p.work, if_true] at hreports ⊢
  unfold settle afterLoopStep isLive at hreports ⊢
  generalize w p.status.currentStep p.work = attempt at hreports ⊢
  obtain ⟨work, events, outcome, duration⟩ := attempt
  simp only [hlive, beq_self_eq_true, Bool.not_false, Bool.and_true, if_true] at hreports ⊢
  cases outcome with
  | more =>
    -- the loop goes to sleep until its delay is over
    refine ⟨rfl, rfl, fun _ => ⟨rfl, rfl, hrunning, Or.inr ⟨p.clock + p.delay, hfresh, ?_⟩⟩,
      fun h => absurd rfl h, nofun, hreports⟩
    show p.sleeping ++ [⟨p.run, p.clock + p.delay⟩] = [⟨p.run, p.clock + p.delay⟩]
    rw [hsleeping, List.nil_append]
  | finished =>
    unfold complete at hreports ⊢
    simp only [reduceCtorEq, if_false, hopen, Bool.false_eq_true] at hreports ⊢
    exact ⟨rfl, rfl, nofun, fun _ => hasLoop_of_nil _ p.run rfl hfresh hsleeping, fun _ => rfl, hreports⟩
  | failed e =>
    exact ⟨rfl, rfl, nofun, fun _ => hasLoop_of_nil _ p.run rfl hfresh hsleeping, nofun, hreports⟩

/-! ## From one step to the next -/

theorem advance_of_now {holds : Playback σ → Bool} {m : Move} (hgo : holds p = false)
    (hnext : p.next = .now m) (deadline : Option Nat) (fuel : Nat) :
    p.advance w holds deadline (fuel + 1) = (p.move w m).advance w holds deadline fuel := by
  rw [advance, hgo, if_neg Bool.false_ne_true, hnext]

theorem advance_of_at {holds : Playback σ → Bool} {time : Nat} (hgo : holds p = false)
    (hnext : p.next = .at time) (fuel : Nat) :
    p.advance w holds none (fuel + 1) = (p.elapseTo time).advance w holds none fuel := by
  rw [advance, hgo, if_neg Bool.false_ne_true, hnext]
  rfl

theorem SoleLoop.hasLoop (h : p.SoleLoop) : p.hasLoop p.run = true := by
  unfold Playback.hasLoop
  rcases h.waits with ⟨hfresh, -⟩ | ⟨alarm, -, hsleeping⟩
  · simp [hfresh]
  · simp [hsleeping]

theorem round_goOn (hw : w.Instant) (hfree : p.gate = .free) (hlive : p.cancelled = false)
    (hrunning : p.status.isRunning = true) (hfresh : p.fresh = []) (hsleeping : p.sleeping = []) :
    Round p (w p.status.currentStep p.work) (p.goOn w p.run) := by
  have hgo : (p.isLive p.run && p.status.isRunning) = true := by
    unfold isLive
    rw [hlive, hrunning]
    simp
  unfold goOn approach
  rw [if_pos hgo, hfree]
  exact round_takeStep hw hlive hrunning hfresh hsleeping

theorem SoleLoop.round_begin (hw : w.Instant) (h : p.SoleLoop) (hfresh : p.fresh = [p.run])
    (hsleeping : p.sleeping = []) :
    Round p (w p.status.currentStep p.work) (p.begin w p.run) := by
  have hnone : p.fresh.erase p.run = [] := by
    rw [hfresh]
    simp
  have hround := round_goOn (p := { p with fresh := p.fresh.erase p.run }) hw h.free h.live h.running
    hnone hsleeping
  exact ⟨hround.run_eq, hround.work_eq, hround.goes_on, hround.ends, hround.completes, hround.reports⟩

theorem SoleLoop.round_wake (hw : w.Instant) (h : p.SoleLoop) {alarm : Nat} (hfresh : p.fresh = [])
    (hsleeping : p.sleeping = [⟨p.run, alarm⟩]) :
    Round p (w p.status.currentStep p.work) (p.wake w ⟨p.run, alarm⟩) := by
  have hnone : p.sleeping.erase ⟨p.run, alarm⟩ = [] := by
    rw [hsleeping]
    simp
  have hrunning := h.running
  have hnotHeld : p.status.isHeld = false := by
    unfold Status.isRunning at hrunning
    unfold Status.isHeld
    simp at hrunning
    simp [hrunning]
  have hround := round_goOn (p := { p with sleeping := p.sleeping.erase ⟨p.run, alarm⟩ }) hw h.free
    h.live hrunning hfresh hnone
  unfold wake
  simp only [hnotHeld, Bool.and_false, Bool.false_eq_true, if_false]
  exact ⟨hround.run_eq, hround.work_eq, hround.goes_on, hround.ends, hround.completes, hround.reports⟩

/-- With nothing but one loop asleep that is not cancelled, its alarm is the next event. -/
theorem next_of_sleeping (hfree : p.gate = .free) (hfresh : p.fresh = []) {s : Sleeper}
    (hsleeping : p.sleeping = [s]) (hlive : p.isLive s.run = true) :
    p.next = if s.alarm ≤ p.clock then .now (.wake s) else .at s.alarm := by
  have hgate : p.gateDue? = none := by
    unfold gateDue?
    rw [hfree]
  unfold next due? nextAlarm?
  rw [hgate, hfresh, hsleeping, hfree]
  by_cases halarm : s.alarm ≤ p.clock
  · have hwakes : p.wakes s = true := by
      unfold wakes
      simp [halarm]
    simp [List.find?, hwakes, halarm]
  · have hwakes : p.wakes s = false := by
      unfold wakes
      simp [halarm, hlive]
    simp [List.find?, hwakes, halarm]

/-- Waiting for the only loop to end, playback comes to its next step within two moves. -/
theorem SoleLoop.exists_round (hw : w.Instant) (h : p.SoleLoop) :
    ∃ (k : Nat) (p' : Playback σ), k ≤ 2 ∧ Round p (w p.status.currentStep p.work) p' ∧
      ∀ fuel, p.advance w (fun q => !q.hasLoop p.run) none (fuel + k)
        = p'.advance w (fun q => !q.hasLoop p.run) none fuel := by
  have hgo : (!p.hasLoop p.run) = false := by
    rw [h.hasLoop]
    rfl
  have hgate : p.gateDue? = none := by
    unfold gateDue?
    rw [h.free]
  rcases h.waits with ⟨hfresh, hsleeping⟩ | ⟨alarm, hfresh, hsleeping⟩
  · -- the loop has not begun
    have hnext : p.next = .now (.begin p.run) := by
      unfold next due?
      rw [hgate, hfresh]
      rfl
    exact ⟨1, _, by omega, h.round_begin hw hfresh hsleeping, fun fuel => advance_of_now hgo hnext _ _⟩
  · have hlive : p.isLive p.run = true := by
      unfold isLive
      rw [h.live]
      simp
    have hnext := next_of_sleeping h.free hfresh hsleeping hlive
    by_cases halarm : alarm ≤ p.clock
    · -- it wakes now
      rw [if_pos halarm] at hnext
      exact ⟨1, _, by omega, h.round_wake hw hfresh hsleeping,
        fun fuel => advance_of_now hgo hnext _ _⟩
    · -- the clock goes on first
      rw [if_neg halarm] at hnext
      have hsole : (p.elapseTo alarm).SoleLoop :=
        ⟨h.free, h.live, h.running, Or.inr ⟨alarm, hfresh, hsleeping⟩⟩
      have hclock : alarm ≤ (p.elapseTo alarm).clock := by
        show alarm ≤ max p.clock alarm
        omega
      have hlater := next_of_sleeping (p := p.elapseTo alarm) h.free hfresh hsleeping hlive
      rw [if_pos hclock] at hlater
      have hround := hsole.round_wake hw hfresh hsleeping
      refine ⟨2, _, by omega, ⟨hround.run_eq, hround.work_eq, hround.goes_on, hround.ends,
        hround.completes, hround.reports⟩, ?_⟩
      intro fuel
      rw [advance_of_at hgo hnext]
      exact advance_of_now hgo hlater _ _

end Playback

end Retrace
