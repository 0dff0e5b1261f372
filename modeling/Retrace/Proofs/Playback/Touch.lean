import Retrace.Playback.Clock
/-!
# How playback touches its work

Whatever playback does of itself or is told to do, its work stays as it was or takes one step
(`Touched`). This is so while the gate is free, and with steps that take no time (`Instant`) it stays
free: a step is over within the move that began it, so nobody ever waits in line.

Playback is completed only by a step that found no more to do, and a loop takes no step unless
playback is on.
-/

namespace Retrace

/-- Whether no step of some work takes time. -/
def Workload.Instant {σ : Type} (w : Workload σ) : Prop := ∀ n x, (w n x).durationMs = 0

namespace Status

variable {s : Status}

theorem isRunning_iff : s.isRunning = true ↔
    s.playing = true ∧ s.paused = false ∧ s.completed = false := by
  unfold isRunning
  simp [and_assoc]

theorem not_isRunning_of_off (h : s.playing = false) : s.isRunning ≠ true :=
  fun hr => Bool.false_ne_true (h.symm.trans (isRunning_iff.mp hr).1)

theorem not_isRunning_of_paused (h : s.paused = true) : s.isRunning ≠ true :=
  fun hr => Bool.false_ne_true ((isRunning_iff.mp hr).2.1.symm.trans h)

end Status

namespace Playback

variable {σ : Type} {w : Workload σ} {p : Playback σ}

theorem isLive_iff {run : Nat} : p.isLive run = true ↔ run = p.run ∧ p.cancelled = false := by
  unfold isLive
  simp

/-- With the gate free nobody is there who could go on. -/
theorem move_proceed_of_free (h : p.gate = .free) : p.move w .proceed = p := by
  unfold move proceed
  rw [h]

theorem move_land_of_free (h : p.gate = .free) : p.move w .land = p := by
  unfold move land
  rw [h]

/-- Playback whose work is left alone, and which is not completed by what was done. -/
structure Still (p p' : Playback σ) : Prop where
  work_eq : p'.work = p.work
  gate_eq : p'.gate = p.gate
  completed : p'.status.completed = true → p.status.completed = true

/-- Playback whose work is left alone or has taken one step. -/
inductive Touched (w : Workload σ) (p p' : Playback σ) : Prop where
  | still (h : p.Still p')
  | stepped (n : Nat) (hwork : p'.work = (w n p.work).work) (hgate : p'.gate = .free)
      (hcompleted : p'.status.completed = true →
        p.status.completed = true ∨ (w n p.work).outcome = .finished)

/-! ## Controls -/

theorem still_play (p : Playback σ) : p.Still p.play.1 := by
  unfold play
  split
  · exact ⟨rfl, rfl, id⟩
  · exact ⟨rfl, rfl, id⟩

theorem still_pause (p : Playback σ) : p.Still p.pause := ⟨rfl, rfl, id⟩

theorem still_reset (p : Playback σ) : p.Still p.reset := ⟨rfl, rfl, nofun⟩

theorem Still.trans {p q r : Playback σ} (h : p.Still q) (h' : q.Still r) : p.Still r :=
  ⟨h'.work_eq.trans h.work_eq, h'.gate_eq.trans h.gate_eq, fun hc => h.completed (h'.completed hc)⟩

theorem still_toggle (p : Playback σ) : p.Still p.toggle := by
  unfold toggle
  split
  · exact p.still_reset.trans p.reset.still_play
  · split
    · exact p.still_pause
    · exact p.still_play

theorem still_resumeFromCompleted (p : Playback σ) : p.Still p.resumeFromCompleted.1 := by
  unfold resumeFromCompleted
  split
  · exact ⟨rfl, rfl, nofun⟩
  · exact ⟨rfl, rfl, id⟩

theorem Still.touched {p q r : Playback σ} (h : p.Still q) (ht : Touched w q r) :
    Touched w p r := by
  cases ht with
  | still h' => exact .still (h.trans h')
  | stepped n hwork hgate hcompleted =>
    rw [h.work_eq] at hwork hcompleted
    exact .stepped n hwork hgate fun hc => (hcompleted hc).imp_left h.completed

theorem Touched.still_after {p q r : Playback σ} (ht : Touched w p q) (h : q.Still r) :
    Touched w p r := by
  cases ht with
  | still h' => exact .still (h'.trans h)
  | stepped n hwork hgate hcompleted =>
    exact .stepped n (h.work_eq.trans hwork) (h.gate_eq.trans hgate)
      fun hc => hcompleted (h.completed hc)

/-! ## A step and what follows it -/

/-- Playback after a step: its work was taken care of before, and it is completed only if it was or if
the step found no more to do. -/
structure Settled (p : Playback σ) (outcome : StepOutcome) (p' : Playback σ) : Prop where
  work_eq : p'.work = p.work
  gate_eq : p'.gate = p.gate
  completed : p'.status.completed = true → p.status.completed = true ∨ outcome = .finished

theorem complete_work (p : Playback σ) : p.complete.work = p.work := by
  unfold complete
  split <;> rfl

theorem complete_gate (p : Playback σ) : p.complete.gate = p.gate := by
  unfold complete
  split <;> rfl

theorem settled_afterLoopStep (p : Playback σ) (run : Nat) (outcome : StepOutcome) :
    p.Settled outcome (p.afterLoopStep run outcome) := by
  unfold afterLoopStep
  by_cases hlive : p.isLive run = true
  · rw [if_pos hlive]
    cases outcome with
    | more => exact ⟨rfl, rfl, Or.inl⟩
    | finished => exact ⟨p.complete_work, p.complete_gate, fun _ => Or.inr rfl⟩
    | failed e => exact ⟨rfl, rfl, Or.inl⟩
  · rw [if_neg hlive]
    exact ⟨rfl, rfl, Or.inl⟩

theorem settled_afterHandStep (p : Playback σ) (ticket : Nat) (outcome : StepOutcome) :
    p.Settled outcome (p.afterHandStep ticket outcome) := by
  cases outcome with
  | more => exact ⟨rfl, rfl, Or.inl⟩
  | finished => exact ⟨p.complete_work, p.complete_gate, fun _ => Or.inr rfl⟩
  | failed e => exact ⟨rfl, rfl, Or.inl⟩

theorem counted_completed (p : Playback σ) (outcome : StepOutcome) :
    (if outcome = .more then p.status.countStep else p.status).completed = p.status.completed := by
  split <;> rfl

/-- With nobody in line the gate is free after a step. -/
theorem settled_settle (p : Playback σ) (holder : Stepper) (outcome : StepOutcome) :
    { p with gate := .free }.Settled outcome (p.settle holder outcome []) := by
  -- the step is counted before it is seen what follows from it
  have hcounted := p.counted_completed outcome
  generalize hstatus : (if outcome = .more then p.status.countStep else p.status) = status at hcounted
  have hsettled : { p with status := status, gate := .free }.Settled outcome
      (p.settle holder outcome []) := by
    unfold settle
    rw [hstatus]
    cases holder with
    | loop run => exact settled_afterLoopStep _ run outcome
    | hand ticket => exact settled_afterHandStep _ ticket outcome
  refine ⟨hsettled.work_eq, hsettled.gate_eq, ?_⟩
  intro hc
  rw [← hcounted]
  exact hsettled.completed hc

/-- A step that takes no time is over at once, and leaves the gate free if nobody waits. -/
theorem touched_takeStep (hw : w.Instant) (p : Playback σ) (holder : Stepper) :
    Touched w p (p.takeStep w holder []) := by
  unfold takeStep
  simp only [hw p.status.currentStep p.work, if_true]
  have hsettled := settled_settle { p with
    work := (w p.status.currentStep p.work).work
    log := p.log ++ (w p.status.currentStep p.work).events.toArray } holder
      (w p.status.currentStep p.work).outcome
  exact .stepped p.status.currentStep hsettled.work_eq hsettled.gate_eq hsettled.completed

/-! ## Moves -/

theorem touched_approach (hw : w.Instant) {p : Playback σ} (hfree : p.gate = .free) (s : Stepper) :
    Touched w p (p.approach w s) := by
  unfold approach
  rw [hfree]
  exact touched_takeStep hw p s

theorem touched_goOn (hw : w.Instant) {p : Playback σ} (hfree : p.gate = .free) (run : Nat) :
    Touched w p (p.goOn w run) := by
  unfold goOn
  split
  · exact touched_approach hw hfree (.loop run)
  · exact .still ⟨rfl, rfl, id⟩

theorem touched_begin (hw : w.Instant) {p : Playback σ} (hfree : p.gate = .free) (run : Nat) :
    Touched w p (p.begin w run) := by
  have hstill : p.Still { p with fresh := p.fresh.erase run } := ⟨rfl, rfl, id⟩
  refine hstill.touched ?_
  unfold begin
  exact touched_goOn hw (hstill.gate_eq.trans hfree) run

theorem touched_wake (hw : w.Instant) {p : Playback σ} (hfree : p.gate = .free) (s : Sleeper) :
    Touched w p (p.wake w s) := by
  have hstill : p.Still { p with sleeping := p.sleeping.erase s } := ⟨rfl, rfl, id⟩
  refine hstill.touched ?_
  unfold wake
  simp only
  split
  · exact .still ⟨rfl, rfl, id⟩
  · exact touched_goOn hw (hstill.gate_eq.trans hfree) s.run

theorem touched_move (hw : w.Instant) {p : Playback σ} (hfree : p.gate = .free) (m : Move) :
    Touched w p (p.move w m) := by
  cases m with
  | begin run => exact touched_begin hw hfree run
  | wake s => exact touched_wake hw hfree s
  | proceed =>
    rw [move_proceed_of_free hfree]
    exact .still ⟨rfl, rfl, id⟩
  | land =>
    rw [move_land_of_free hfree]
    exact .still ⟨rfl, rfl, id⟩

/-- Loops take no step unless playback is on. -/
theorem still_move (hfree : p.gate = .free) (hoff : p.status.playing = false) (m : Move) :
    p.Still (p.move w m) ∧ (p.move w m).status = p.status := by
  have hrunning : p.status.isRunning = false := by
    unfold Status.isRunning
    rw [hoff]
    rfl
  have hheld : p.status.isHeld = false := by
    unfold Status.isHeld
    rw [hoff]
    rfl
  cases m with
  -- a loop that finds playback off ends
  | begin run =>
    have hbegin : p.begin w run = { p with fresh := p.fresh.erase run } := by
      unfold begin goOn
      rw [hrunning, Bool.and_false, if_neg Bool.false_ne_true]
    show p.Still (p.begin w run) ∧ (p.begin w run).status = p.status
    rw [hbegin]
    exact ⟨⟨rfl, rfl, id⟩, rfl⟩
  | wake s =>
    have hwake : p.wake w s = { p with sleeping := p.sleeping.erase s } := by
      unfold wake goOn
      simp only [hrunning, hheld, Bool.and_false, Bool.false_eq_true, if_false]
    show p.Still (p.wake w s) ∧ (p.wake w s).status = p.status
    rw [hwake]
    exact ⟨⟨rfl, rfl, id⟩, rfl⟩
  | proceed =>
    rw [move_proceed_of_free hfree]
    exact ⟨⟨rfl, rfl, id⟩, rfl⟩
  | land =>
    rw [move_land_of_free hfree]
    exact ⟨⟨rfl, rfl, id⟩, rfl⟩

/-! ## A step by hand -/

theorem touched_requestStep (hw : w.Instant) {p : Playback σ} (hfree : p.gate = .free) :
    Touched w p (p.requestStep w).1 := by
  unfold requestStep
  simp only
  split
  · exact .still ⟨rfl, rfl, id⟩
  · split
    · have hstill : p.Still ({ p with tickets := p.tickets + 1 } : Playback σ).pause :=
        ⟨rfl, rfl, id⟩
      exact hstill.touched (touched_approach hw (hstill.gate_eq.trans hfree) _)
    · have hstill : p.Still { p with tickets := p.tickets + 1 } := ⟨rfl, rfl, id⟩
      exact hstill.touched (touched_approach hw (hstill.gate_eq.trans hfree) _)

/-- What came of a step by hand is there as soon as it is noted. -/
theorem isSome_answer (p : Playback σ) (ticket : Nat) (r : Except SessionFailure Bool) :
    ((p.answer ticket r).answer? ticket).isSome = true := by
  unfold answer answer?
  rw [List.lookup_append]
  cases p.answers.lookup ticket with
  | none => exact congrArg Option.isSome List.lookup_cons_self
  | some _ => rfl

theorem isSome_afterHandStep (p : Playback σ) (ticket : Nat) (outcome : StepOutcome) :
    ((p.afterHandStep ticket outcome).answer? ticket).isSome = true := by
  cases outcome with
  | more => exact isSome_answer _ ticket _
  | finished => exact isSome_answer _ ticket _
  | failed e => exact isSome_answer _ ticket _

/-- A step by hand that takes no time is answered at once, if the gate is free. -/
theorem isSome_requestStep (hw : w.Instant) {p : Playback σ} (hfree : p.gate = .free) :
    ((p.requestStep w).1.answer? (p.requestStep w).2).isSome = true := by
  have happroach : ∀ (q : Playback σ) (ticket : Nat), q.gate = .free →
      ((q.approach w (.hand ticket)).answer? ticket).isSome = true := by
    intro q ticket hq
    unfold approach
    rw [hq]
    unfold takeStep
    simp only [hw q.status.currentStep q.work, if_true]
    exact isSome_afterHandStep _ ticket _
  unfold requestStep
  simp only
  split
  · exact isSome_answer _ _ _
  · split
    · exact happroach _ _ hfree
    · exact happroach _ _ hfree

theorem advance_of_holds {holds : Playback σ → Bool} (h : holds p = true) (deadline : Option Nat)
    (fuel : Nat) : p.advance w holds deadline fuel = p := by
  cases fuel with
  | zero => rfl
  | succ fuel =>
    unfold advance
    rw [if_pos h]

theorem touched_stepForward (hw : w.Instant) {p : Playback σ} (hfree : p.gate = .free)
    (fuel : Nat) : Touched w p (p.stepForward w fuel).1 := by
  have hanswered := isSome_requestStep hw hfree
  have htouched := touched_requestStep hw hfree
  unfold stepForward
  generalize p.requestStep w = request at hanswered htouched ⊢
  obtain ⟨q, ticket⟩ := request
  simp only
  rw [advance_of_holds hanswered]
  exact htouched.still_after ⟨rfl, rfl, id⟩

end Playback

end Retrace
