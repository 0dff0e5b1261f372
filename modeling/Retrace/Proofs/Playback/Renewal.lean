import Retrace.Proofs.Playback.Patience
/-!
# Playback that starts over

A playback that was used and then reset is like a new one, but not the same: its runs have higher
numbers, its clock has gone on, and loops of earlier runs may linger. `Renews base late old slept p q`
says that `p` is such a playback and `q` the new one: runs are counted from `base`, the clock is ahead
by `late`, and the loops in `old` and `slept` are of runs before that, all of them cancelled.

Whatever is done to both keeps them so. Left to themselves they make the same moves, except that in `p`
each loop left behind moves once in between, and ends (`Renews.settles`).
-/

namespace Retrace

/-- The status is the same, except that the first tells of a reset where the second tells of nothing. -/
structure Status.Renews (s s' : Status) : Prop where
  agree : { s with state := .idle } = { s' with state := .idle }
  state : s.state = s'.state ∨ (s'.state = .idle ∧ s.state = .reset)

namespace Status.Renews

variable {s s' : Status}

/-- Nothing but the state may differ, so whatever does not look at it does not differ. -/
theorem congr {α : Type} (h : s.Renews s') (f : Status → α)
    (hf : ∀ s : Status, f { s with state := .idle } = f s) : f s = f s' := by
  rw [← hf s, ← hf s', h.agree]

/-- A change of the status that does not look at the state and leaves it alone. -/
theorem map (h : s.Renews s') (f : Status → Status)
    (hf : ∀ s : Status, f { s with state := .idle } = { f s with state := .idle })
    (hstate : ∀ s, (f s).state = s.state) : (f s).Renews (f s') where
  agree := by rw [← hf s, ← hf s', h.agree]
  state := by
    rw [hstate s, hstate s']
    exact h.state

/-- Once a state is entered there is no difference left. -/
theorem enter (h : s.Renews s') (x : PlaybackState) : { s with state := x } = { s' with state := x } :=
  h.congr (fun s => { s with state := x }) fun _ => rfl

end Status.Renews

/-- A sleeper as it is where runs are counted from `base` and the clock is ahead by `late`. -/
def Sleeper.later (base late : Nat) (s : Sleeper) : Sleeper := ⟨s.run + base, s.alarm + late⟩

theorem Sleeper.later_injective (base late : Nat) : Function.Injective (Sleeper.later base late) := by
  rintro ⟨run, alarm⟩ ⟨run', alarm'⟩ h
  injection h with hrun halarm
  exact congrArg₂ Sleeper.mk (Nat.add_right_cancel hrun) (Nat.add_right_cancel halarm)

namespace Playback

variable {σ : Type} {w : Workload σ} {p q : Playback σ} {base late : Nat} {old : List Nat}
  {slept : List Sleeper}

/-- The first playback is like the second, with runs counted from `base`, the clock ahead by `late`, and
the loops `old` and `slept` left behind. -/
structure Renews (base late : Nat) (old : List Nat) (slept : List Sleeper) (p q : Playback σ) :
    Prop where
  bounds : p.bounds = q.bounds
  pausePollMs : p.pausePollMs = q.pausePollMs
  status : p.status.Renews q.status
  turbo : p.turbo = q.turbo
  run : p.run = q.run + base
  /-- Before anything is played the run left behind is the latest one. -/
  unplayed : q.run = 0 → p.cancelled = true
  cancelled : q.run ≠ 0 → p.cancelled = q.cancelled
  fresh : p.fresh = old ++ q.fresh.map (· + base)
  sleeping : p.sleeping = slept ++ q.sleeping.map (Sleeper.later base late)
  old_le : ∀ run ∈ old, run ≤ base
  slept_le : ∀ s ∈ slept, s.run ≤ base
  free : p.gate = .free
  answered : p.answers = []
  awaitable : (∃ run, q.awaitable = some run ∧ p.awaitable = some (run + base)) ∨
    (q.awaitable = none ∧ (p.awaitable = none ∨ q.run = 0))
  clock : p.clock = q.clock + late
  work : p.work = q.work
  log : p.log = q.log

namespace Renews

/-! ## Controls -/

theorem completed (h : Renews base late old slept p q) :
    p.status.completed = q.status.completed := h.status.congr _ fun _ => rfl

theorem setStatus (h : Renews base late old slept p q) {s s' : Status} (hs : s.Renews s') :
    Renews base late old slept { p with status := s } { q with status := s' } :=
  { h with status := hs }

theorem setWork (h : Renews base late old slept p q) (x : σ) :
    Renews base late old slept { p with work := x } { q with work := x } :=
  { h with work := rfl }

theorem appendLog (h : Renews base late old slept p q) (events : Array Event) :
    Renews base late old slept { p with log := p.log ++ events } { q with log := q.log ++ events } :=
  { h with log := congrArg (· ++ events) h.log }

theorem notify (h : Renews base late old slept p q) (e : Event) :
    Renews base late old slept (p.notify e) (q.notify e) :=
  { h with log := congrArg (·.push e) h.log }

theorem enterState (h : Renews base late old slept p q) (x : PlaybackState) :
    Renews base late old slept (p.enterState x) (q.enterState x) := by
  have hentered := h.status.enter x
  have hsame : Status.Renews { p.status with state := x } { q.status with state := x } :=
    ⟨congrArg (fun s : Status => { s with state := .idle }) hentered, Or.inl rfl⟩
  unfold Playback.enterState
  simp only
  rw [hentered] at hsame ⊢
  exact (h.setStatus hsame).notify _

theorem pause (h : Renews base late old slept p q) : Renews base late old slept p.pause q.pause :=
  (h.setStatus (h.status.map (fun s => { s with paused := true }) (fun _ => rfl)
    fun _ => rfl)).enterState .paused

theorem stop (h : Renews base late old slept p q) : Renews base late old slept p.stop q.stop := by
  have hoff := h.setStatus (h.status.map (fun s => { s with playing := false, paused := false })
    (fun _ => rfl) fun _ => rfl)
  have hcancelled : Renews base late old slept
      { p with cancelled := true, status := { p.status with playing := false, paused := false } }
      { q with cancelled := true, status := { q.status with playing := false, paused := false } } :=
    { hoff with unplayed := fun _ => rfl, cancelled := fun _ => rfl }
  exact hcancelled.enterState .stopped

theorem reset (h : Renews base late old slept p q) : Renews base late old slept p.reset q.reset :=
  (h.stop.setStatus (h.stop.status.map
    (fun s => { s with currentStep := 0, totalSteps := 0, completed := false }) (fun _ => rfl)
    fun _ => rfl)).enterState .reset

theorem fail (h : Renews base late old slept p q) (e : SessionFailure) :
    Renews base late old slept (p.fail e) (q.fail e) := (h.notify (.failed e)).stop

theorem complete (h : Renews base late old slept p q) :
    Renews base late old slept p.complete q.complete := by
  unfold Playback.complete
  rw [h.completed]
  split
  · exact h
  · exact ((h.setStatus (h.status.map
      (fun s => { s with playing := false, paused := false, completed := true }) (fun _ => rfl)
      fun _ => rfl)).enterState .completed).notify .completed

theorem resumeFromCompleted (h : Renews base late old slept p q) :
    Renews base late old slept p.resumeFromCompleted.1 q.resumeFromCompleted.1 := by
  unfold Playback.resumeFromCompleted
  rw [h.completed]
  split
  · exact (h.setStatus (h.status.map (fun s => { s with completed := false, paused := true })
      (fun _ => rfl) fun _ => rfl)).enterState .paused
  · exact h

theorem setSpeed (h : Renews base late old slept p q) (ms : Nat) :
    Renews base late old slept (p.setSpeed ms).1 (q.setSpeed ms).1
      ∧ (p.setSpeed ms).2 = (q.setSpeed ms).2 := by
  have hspeed : p.bounds.clamp ms = q.bounds.clamp ms := by rw [h.bounds]
  unfold Playback.setSpeed
  simp only
  rw [hspeed]
  exact ⟨h.setStatus (h.status.map (fun s => { s with speedMs := q.bounds.clamp ms })
    (fun _ => rfl) fun _ => rfl), rfl⟩

theorem setTurbo (h : Renews base late old slept p q) (on : Bool) :
    Renews base late old slept (p.setTurbo on) (q.setTurbo on) := { h with turbo := rfl }

theorem drain (h : Renews base late old slept p q) :
    Renews base late old slept p.drain.1 q.drain.1 ∧ p.drain.2 = q.drain.2 :=
  ⟨{ h with log := rfl }, h.log⟩

/-- The loops left behind stand before the loop of the run that is started. -/
theorem play (h : Renews base late old slept p q) :
    Renews base late old slept p.play.1 q.play.1 := by
  unfold Playback.play
  rw [h.completed]
  split
  · exact h
  · have hrun : p.run + 1 = q.run + 1 + base := by
      rw [h.run]
      omega
    have hstatus := h.status.map (fun s => { s with playing := true, paused := false })
      (fun _ => rfl) fun _ => rfl
    have hstarted : Renews base late old slept
        { p with
          run := p.run + 1
          cancelled := false
          status := { p.status with playing := true, paused := false }
          fresh := p.fresh ++ [p.run + 1]
          awaitable := some (p.run + 1) }
        { q with
          run := q.run + 1
          cancelled := false
          status := { q.status with playing := true, paused := false }
          fresh := q.fresh ++ [q.run + 1]
          awaitable := some (q.run + 1) } :=
      { h with
        status := hstatus
        run := hrun
        unplayed := nofun
        cancelled := fun _ => rfl
        fresh := by
          rw [h.fresh, hrun, List.map_append, List.append_assoc]
          rfl
        awaitable := Or.inl ⟨q.run + 1, rfl, congrArg some hrun⟩ }
    exact hstarted.enterState .playing

theorem toggle (h : Renews base late old slept p q) :
    Renews base late old slept p.toggle q.toggle := by
  have hplaying : (p.status.playing && !p.status.paused) = (q.status.playing && !q.status.paused) :=
    h.status.congr (fun s => s.playing && !s.paused) fun _ => rfl
  unfold Playback.toggle
  rw [h.completed, hplaying]
  split
  · exact h.reset.play
  · split
    · exact h.pause
    · exact h.play

/-! ## Steps -/

theorem outcome (h : Renews base late old slept p q) : p.outcome w = q.outcome w := by
  have hcount : p.status.currentStep = q.status.currentStep := h.status.congr _ fun _ => rfl
  unfold Playback.outcome
  rw [hcount, h.work]

theorem stepped (h : Renews base late old slept p q) :
    Renews base late old slept (p.stepped w) (q.stepped w) := by
  have hcount : p.status.currentStep = q.status.currentStep := h.status.congr _ fun _ => rfl
  unfold Playback.stepped
  rw [hcount, h.work]
  refine (h.setWork _).appendLog _ |>.setStatus ?_
  split
  · exact h.status.map Status.countStep (fun _ => rfl) fun _ => rfl
  · exact h.status

theorem heldUp (h : Renews base late old slept p q) :
    Renews base late old slept p.heldUp q.heldUp := by
  have hplaying : (p.status.playing && !p.status.paused) = (q.status.playing && !q.status.paused) :=
    h.status.congr (fun s => s.playing && !s.paused) fun _ => rfl
  unfold Playback.heldUp
  rw [hplaying]
  split
  · exact h.pause
  · exact h

theorem byHand (h : Renews base late old slept p q) :
    Renews base late old slept (p.byHand w).1 (q.byHand w).1
      ∧ (p.byHand w).2 = (q.byHand w).2 := by
  unfold Playback.byHand
  rw [h.completed, h.heldUp.outcome]
  split
  · exact ⟨h, rfl⟩
  · split
    · exact ⟨h.heldUp.stepped, rfl⟩
    · exact ⟨h.heldUp.stepped.complete, rfl⟩
    · exact ⟨h.heldUp.stepped.fail _, rfl⟩

theorem stepForward (hw : w.Instant) (h : Renews base late old slept p q) (ho : q.Orderly)
    (fuel fuel' : Nat) :
    Renews base late old slept (p.stepForward w fuel).1 (q.stepForward w fuel').1
      ∧ (p.stepForward w fuel).2 = (q.stepForward w fuel').2 := by
  have hticketed : Renews base late old slept p.ticketed q.ticketed := { h with }
  obtain ⟨hstepped, hanswer⟩ := hticketed.byHand (w := w)
  rw [stepForward_of_instant hw h.free h.answered, stepForward_of_instant hw ho.free ho.answered]
  exact ⟨hstepped, congrArg some hanswer⟩

/-! ## Moves -/

theorem isLive (h : Renews base late old slept p q) {run : Nat} (hpos : 0 < run) :
    p.isLive (run + base) = q.isLive run := by
  unfold Playback.isLive
  rw [h.run]
  by_cases hplayed : q.run = 0
  · have hne : (run == q.run) = false := by
      rw [hplayed]
      exact beq_false_of_ne (Nat.ne_zero_of_lt hpos)
    rw [h.unplayed hplayed, hne]
    simp
  · rw [h.cancelled hplayed]
    congr 1
    rw [Bool.eq_iff_iff]
    simp

/-- The loops left behind are of cancelled runs. -/
theorem dead (h : Renews base late old slept p q) {run : Nat} (hle : run ≤ base) :
    p.isLive run = false := by
  unfold Playback.isLive
  rw [h.run]
  by_cases hplayed : q.run = 0
  · rw [h.unplayed hplayed]
    simp
  · have hne : (run == q.run + base) = false := beq_false_of_ne (by omega)
    rw [hne]
    rfl

theorem hasLoop (h : Renews base late old slept p q) (ho : q.Orderly) {run : Nat} (hpos : 0 < run) :
    p.hasLoop (run + base) = q.hasLoop run := by
  have hfresh : p.fresh.contains (run + base) = q.fresh.contains run := by
    rw [h.fresh, Bool.eq_iff_iff]
    simp only [List.contains_iff_mem, List.mem_append, List.mem_map, Nat.add_right_cancel_iff,
      exists_eq_right]
    refine ⟨fun hmem => hmem.resolve_left fun hold => ?_, Or.inr⟩
    have hle := h.old_le _ hold
    omega
  have hsleeping : p.sleeping.any (·.run == run + base) = q.sleeping.any (·.run == run) := by
    rw [h.sleeping, Bool.eq_iff_iff]
    simp only [List.any_eq_true, List.mem_append, List.mem_map, beq_iff_eq]
    constructor
    · rintro ⟨s, hold | ⟨s', hs', rfl⟩, hrun⟩
      · have hle := h.slept_le s hold
        omega
      · exact ⟨s', hs', Nat.add_right_cancel hrun⟩
    · rintro ⟨s, hs, hrun⟩
      exact ⟨s.later base late, Or.inr ⟨s, hs, rfl⟩, congrArg (· + base) hrun⟩
  unfold Playback.hasLoop
  rw [hfresh, hsleeping, h.free, ho.free]
  rfl

theorem elapseTo (h : Renews base late old slept p q) (time : Nat) :
    Renews base late old slept (p.elapseTo (time + late)) (q.elapseTo time) :=
  { h with
    clock := by
      show max p.clock (time + late) = max q.clock time + late
      rw [h.clock]
      omega }

theorem sleep (h : Renews base late old slept p q) (run ms : Nat) :
    Renews base late old slept (p.sleep (run + base) ms) (q.sleep run ms) :=
  { h with
    sleeping := by
      have hslept : Sleeper.mk (run + base) (p.clock + ms)
          = Sleeper.later base late ⟨run, q.clock + ms⟩ := by
        unfold Sleeper.later
        rw [h.clock, Nat.add_right_comm]
      show p.sleeping ++ [Sleeper.mk (run + base) (p.clock + ms)]
        = slept ++ (q.sleeping ++ [Sleeper.mk run (q.clock + ms)]).map (Sleeper.later base late)
      rw [h.sleeping, hslept, List.map_append, List.append_assoc]
      rfl }

theorem goOn (hw : w.Instant) (h : Renews base late old slept p q) (hfree : q.gate = .free)
    {run : Nat} (hpos : 0 < run) :
    Renews base late old slept (p.goOn w (run + base)) (q.goOn w run) := by
  have hrunning : p.status.isRunning = q.status.isRunning := h.status.congr _ fun _ => rfl
  cases hgo : q.isLive run && q.status.isRunning with
  | false =>
    rw [goOn_of_not hgo, goOn_of_not]
    · exact h
    · rw [h.isLive hpos, hrunning]
      exact hgo
  | true =>
    obtain ⟨hlive, hon⟩ := Bool.and_eq_true_iff.mp hgo
    rw [goOn_of_running hw hfree hlive hon,
      goOn_of_running hw h.free ((h.isLive hpos).trans hlive) (hrunning.trans hon), h.outcome]
    have hstepped := h.stepped (w := w)
    cases q.outcome w with
    | more =>
      have hdelay : (p.stepped w).delay = (q.stepped w).delay := by
        have hspeed : (p.stepped w).status.speedMs = (q.stepped w).status.speedMs :=
          hstepped.status.congr _ fun _ => rfl
        unfold delay
        rw [hspeed, hstepped.bounds, hstepped.turbo]
      simp only
      rw [hdelay]
      exact hstepped.sleep run _
    | finished => exact hstepped.complete
    | failed e => exact hstepped.fail e

/-- A loop that has not begun, and that is not left behind. -/
theorem begin (hw : w.Instant) (h : Renews base late [] slept p q) (ho : q.Orderly) {run : Nat}
    {waiting : List Nat} (hfresh : q.fresh = run :: waiting) :
    Renews base late [] slept (p.begin w (run + base)) (q.begin w run) := by
  have hpos : 0 < run := ho.numbered run (by
    unfold loops
    rw [hfresh]
    exact List.mem_cons_self)
  have hoff : Renews base late [] slept { p with fresh := p.fresh.erase (run + base) }
      { q with fresh := q.fresh.erase run } :=
    { h with
      fresh := by
        show p.fresh.erase (run + base) = [] ++ (q.fresh.erase run).map (· + base)
        rw [h.fresh, hfresh]
        simp }
  exact hoff.goOn hw ho.free hpos

/-- A loop that is asleep, while none is left behind that is asleep. -/
theorem wake (hw : w.Instant) (h : Renews base late old [] p q) (ho : q.Orderly) {s : Sleeper}
    (hs : s ∈ q.sleeping) :
    Renews base late old [] (p.wake w (s.later base late)) (q.wake w s) := by
  have hpos : 0 < s.run := ho.numbered s.run (by
    unfold loops
    exact List.mem_append_right _ (List.mem_map_of_mem hs))
  have hoff : Renews base late old [] { p with sleeping := p.sleeping.erase (s.later base late) }
      { q with sleeping := q.sleeping.erase s } :=
    { h with
      sleeping := by
        show p.sleeping.erase (s.later base late)
          = [] ++ (q.sleeping.erase s).map (Sleeper.later base late)
        rw [h.sleeping, List.nil_append, List.nil_append,
          List.map_erase (Sleeper.later_injective base late)] }
  have hheld : p.status.isHeld = q.status.isHeld := h.status.congr _ fun _ => rfl
  have hlive : p.isLive (s.later base late).run = q.isLive s.run := h.isLive hpos
  have hlive' : ({ p with sleeping := p.sleeping.erase (s.later base late) } : Playback σ).isLive
      (s.later base late).run = q.isLive s.run := hlive
  have hkept : ({ q with sleeping := q.sleeping.erase s } : Playback σ).isLive s.run
      = q.isLive s.run := rfl
  unfold Playback.wake
  simp only
  rw [hlive', hkept, hheld]
  split
  · have hsleep := hoff.sleep s.run q.pausePollMs
    rw [← h.pausePollMs] at hsleep ⊢
    exact hsleep
  · exact hoff.goOn hw ho.free hpos

/-! ## Loops left behind -/

theorem begin_old {run : Nat} (h : Renews base late (run :: old) slept p q) :
    p.next = .now (.begin run) ∧ Renews base late old slept (p.begin w run) q := by
  refine ⟨next_of_fresh h.free h.fresh, ?_⟩
  have hoff : Renews base late old slept { p with fresh := p.fresh.erase run } q :=
    { h with
      fresh := by
        show p.fresh.erase run = old ++ q.fresh.map (· + base)
        rw [h.fresh, List.cons_append, List.erase_cons_head]
      old_le := fun other hother => h.old_le other (List.mem_cons_of_mem run hother) }
  unfold Playback.begin
  rw [goOn_of_not]
  · exact hoff
  · rw [hoff.dead (h.old_le run List.mem_cons_self)]
    rfl

theorem fresh_eq_nil (h : Renews base late [] slept p q) (hfresh : q.fresh = []) : p.fresh = [] := by
  rw [h.fresh, hfresh]
  rfl

theorem wake_slept {s : Sleeper} (h : Renews base late [] (s :: slept) p q) (hfresh : q.fresh = []) :
    p.next = .now (.wake s) ∧ Renews base late [] slept (p.wake w s) q := by
  have hdead := h.dead (h.slept_le s List.mem_cons_self)
  have hfind : p.sleeping.find? p.wakes = some s := by
    have hwakes : p.wakes s = true := by
      unfold Playback.wakes
      rw [hdead]
      rfl
    rw [h.sleeping, List.cons_append, List.find?_cons_of_pos hwakes]
  refine ⟨next_of_wakes h.free (h.fresh_eq_nil hfresh) hfind, ?_⟩
  have hoff : Renews base late [] slept { p with sleeping := p.sleeping.erase s } q :=
    { h with
      sleeping := by
        show p.sleeping.erase s = slept ++ q.sleeping.map (Sleeper.later base late)
        rw [h.sleeping, List.cons_append, List.erase_cons_head]
      slept_le := fun other hother => h.slept_le other (List.mem_cons_of_mem s hother) }
  have hdead' : ({ p with sleeping := p.sleeping.erase s } : Playback σ).isLive s.run = false := hdead
  unfold Playback.wake
  simp only
  rw [hdead', Bool.false_and, if_neg Bool.false_ne_true, goOn_of_not]
  · exact hoff
  · rw [hdead']
    rfl

end Renews

end Playback

end Retrace
