import Retrace.Proofs.Session.FailedStep
/-!
# The four ways forward

Going forward does one of four things, and what decides is whether a run was started and where the cursor
of the history is: it replays a snapshot that lies ahead (`forward_of_ahead`), takes a step of the program
from the last one (`forward_of_last`), starts a run with its first step (`forward_of_loaded`), or cannot
start one (`forward_of_refused`). Nothing that a session does takes time, so a step by hand is over at
once (`Playback.byHand`), and all four can be said in one piece.
-/

namespace Retrace

namespace Playback

/-- A step by hand takes one step of the work, unless playback is completed. -/
theorem work_byHand {σ : Type} (w : Workload σ) (p : Playback σ) : (p.byHand w).1.work
    = if p.status.completed then p.work else (w p.heldUp.status.currentStep p.heldUp.work).work := by
  unfold byHand
  split
  · rfl
  · split
    · rfl
    · exact complete_work _
    · rfl

theorem byHand_of_completed {σ : Type} {w : Workload σ} {p : Playback σ}
    (h : p.status.completed = true) : p.byHand w = (p, .ok false) := if_pos h

end Playback

namespace Session

variable {s : Session}

/-- A step of the program by hand. -/
def programmed (s : Session) : Session := ⟨(s.playback.ticketed.byHand Execution.workload).1⟩

/-- What came of it. -/
def answer (s : Session) : Except SessionFailure Bool :=
  (s.playback.ticketed.byHand Execution.workload).2

theorem stepProgram_eq (ht : s.playback.Tidy) : s.stepProgram = (s.programmed, s.answer) := by
  unfold stepProgram
  rw [Playback.stepForward_of_instant Execution.instant_workload ht.free ht.answered]
  rfl

theorem execution_programmed (s : Session) : s.programmed.execution
    = if s.playback.status.completed then s.execution else s.execution.step.1 := by
  have hwork : s.programmed.execution = _ :=
    s.playback.ticketed.work_byHand Execution.workload
  have hheld : s.playback.ticketed.heldUp.work = s.execution := s.playback.ticketed.heldUp_frame.1
  rw [hwork, hheld]
  rfl

/-- The run that a session has loaded, held up before its first step. -/
def primed (s : Session) : Session := ⟨s.load.1.playback.pause⟩

theorem execution_primed (s : Session) : s.primed.execution = s.execution.start.1 := rfl

/-- A snapshot that lies ahead is replayed. -/
theorem forward_of_ahead (hstarted : s.execution.started = true)
    (hcan : s.execution.history.canStepForward = true) :
    s.forward = ((s.withExecution { s.execution with
        history := s.execution.history.stepForward.1 }).notify
          (s.execution.history.stepForward.2.toList.map .snapshot),
      .ok s.execution.history.stepForward.2) := by
  unfold forward
  rw [if_pos hstarted, if_pos hcan]

/-- From the last snapshot a step of the program is taken, and what it captures is shown. -/
theorem forward_of_last (ht : s.playback.Tidy) (hstarted : s.execution.started = true)
    (hend : s.execution.history.canStepForward = false) :
    s.forward = (s.programmed, s.answer.map fun _ =>
      if s.programmed.execution.history.captures = s.execution.history.captures then none
      else s.programmed.current?) := by
  unfold forward
  rw [if_pos hstarted, hend, if_neg Bool.false_ne_true, stepProgram_eq ht]
  cases s.answer <;> rfl

/-- A run that was not started is loaded and held up, and its first step is taken. -/
theorem forward_of_loaded (ht : s.playback.Tidy) (hload : s.load.2 = .ok .started) :
    s.forward = (s.primed.programmed, s.primed.answer.map fun _ => s.primed.programmed.current?) := by
  have hunstarted : s.execution.started = false := (Execution.start_of_started hload).1
  have hprimed : s.playback.SameLoops s.primed.playback :=
    s.sameLoops_load.trans (Playback.sameLoops_pause _)
  have hstep : Session.stepProgram ⟨s.load.1.playback.pause⟩
      = (s.primed.programmed, s.primed.answer) := stepProgram_eq (ht.of_same hprimed)
  have hloaded : s.load = (s.load.1, .ok .started) := Prod.ext rfl hload
  unfold forward
  rw [hunstarted, if_neg Bool.false_ne_true, hloaded]
  simp only [hstep]
  cases s.primed.answer <;> rfl

/-- A run that cannot be started is refused, or its failure told. -/
theorem forward_of_refused (hstarted : s.execution.started = false) (hload : s.load.2 ≠ .ok .started) :
    s.forward = (s.load.1, s.load.2.map fun _ => none) := by
  unfold forward
  rw [hstarted, if_neg Bool.false_ne_true]
  split
  next s' he => exact absurd (congrArg Prod.snd he) hload
  next s' outcome _ he => rw [he]; rfl
  next s' e he => rw [he]; rfl

end Session

end Retrace
