import Retrace.Proofs.Session.Operation
/-!
# What an operation does to the execution of a session

There are many operations on a session and few things that they do to its execution: they load the
source, take one step, or leave everything alone but the source and the place in the history
(`Affected`). What holds of these few things holds of every operation (`Session.perform_affected`),
whatever else it does to the playback.
-/

namespace Retrace

namespace Execution

/-- What an operation on a session makes of its execution, a reset apart. -/
inductive Affected (x : Execution) : Execution → Prop where
  /-- Only the source and the place in the history are free to change. -/
  | moved (source : String) (cursor : Option Nat) :
      Affected x { x with source := source, history := { x.history with cursor := cursor } }
  | loaded : Affected x x.start.1
  | stepped : Affected x x.step.1
  /-- The source is loaded and the first step taken. -/
  | begun (hstart : x.start.2.2 = .ok .started) : Affected x x.start.1.step.1

theorem Affected.refl (x : Execution) : Affected x x := .moved x.source x.history.cursor

/-- Once a run was started nothing is loaded, so a step is taken or only the source and the place in the
history change. -/
theorem Affected.of_started {x x' : Execution} (h : Affected x x') (hstarted : x.started = true) :
    (∃ source cursor,
      x' = { x with source := source, history := { x.history with cursor := cursor } })
    ∨ x' = x.step.1 := by
  have hstart := start_again hstarted
  cases h with
  | moved source cursor => exact Or.inl ⟨source, cursor, rfl⟩
  | loaded =>
    rw [hstart]
    exact Or.inl ⟨x.source, x.history.cursor, rfl⟩
  | stepped => exact Or.inr rfl
  | begun hloaded =>
    rw [hstart] at hloaded
    cases hloaded

end Execution

namespace Session

open Execution (Affected)

/-- Touched playback has taken at most one step of its execution. -/
theorem affected_of_touched {s : Session} {p : Playback Execution}
    (ht : Playback.Touched Execution.workload s.playback p) : Affected s.execution p.work := by
  cases ht with
  | still h =>
    rw [h.work_eq]
    exact .refl _
  | stepped n hwork =>
    rw [hwork]
    exact .stepped

theorem execution_load (s : Session) : s.load.1.execution = s.execution.start.1 := rfl

theorem outcome_load (s : Session) : s.load.2 = s.execution.start.2.2 := rfl

theorem log_load (s : Session) :
    s.load.1.playback.log.toList = s.playback.log.toList ++ s.execution.start.2.1 := by
  show (s.playback.log ++ s.execution.start.2.1.toArray).toList = _
  simp

/-- Starting a run loads its source. -/
theorem execution_start (s : Session) : s.start.1.execution = s.execution.start.1 := by
  rw [← execution_load]
  unfold Session.start
  generalize s.load = loaded
  obtain ⟨s', outcome⟩ := loaded
  split
  next he =>
    injection he with hs
    rw [hs]
    exact (Playback.still_play _).work_eq
  next he =>
    injection he with hs
    rw [hs]

theorem affected_toggle (s : Session) : Affected s.execution s.toggle.1.execution := by
  unfold Session.toggle
  by_cases hstarted : s.execution.started = true
  · rw [if_pos hstarted]
    exact affected_of_touched (.still s.playback.still_toggle)
  · rw [if_neg hstarted]
    have hloaded : Affected s.execution s.start.1.execution := by
      rw [execution_start]
      exact .loaded
    generalize s.start = result at hloaded ⊢
    obtain ⟨s', outcome⟩ := result
    cases outcome <;> exact hloaded

/-- Going back moves the cursor of the history and touches nothing else of the execution. -/
theorem execution_back (s : Session) :
    s.back.1.execution = { s.execution with
      history := { s.execution.history with cursor := s.back.1.execution.history.cursor } } := by
  have hback := s.execution.history.stepBack_fst
  unfold Session.back
  generalize s.execution.history.stepBack = result at hback ⊢
  obtain ⟨history, snapshot⟩ := result
  cases snapshot with
  | none => rfl
  | some snapshot =>
    have hback : history = { s.execution.history with cursor := history.cursor } := hback
    have hmoved : ∀ p : Playback Execution, p.work = { s.execution with history := history } →
        p.resumeFromCompleted.1.work = { s.execution with history := { s.execution.history with
          cursor := p.resumeFromCompleted.1.work.history.cursor } } := by
      intro p hp
      rw [p.still_resumeFromCompleted.work_eq, hp, ← hback]
    exact hmoved _ rfl

/-- So does going forward where the history has a snapshot ahead. -/
theorem execution_forward_of_replay {s : Session} (hstarted : s.execution.started = true)
    (hcan : s.execution.history.canStepForward = true) :
    s.forward.1.execution = { s.execution with
      history := { s.execution.history with cursor := s.forward.1.execution.history.cursor } } := by
  have hforward : s.forward.1.execution
      = { s.execution with history := s.execution.history.stepForward.1 } := by
    unfold Session.forward
    rw [if_pos hstarted, if_pos hcan]
    rfl
  rw [hforward, ← s.execution.history.stepForward_fst]

/-- A step by hand is the only thing that going forward does beyond the history and the loading. -/
theorem affected_forward {s : Session} (hfree : s.playback.gate = .free) :
    Affected s.execution s.forward.1.execution := by
  by_cases hstarted : s.execution.started = true
  · by_cases hcan : s.execution.history.canStepForward = true
    · rw [execution_forward_of_replay hstarted hcan]
      exact .moved s.execution.source _
    · unfold Session.forward
      rw [if_pos hstarted, if_neg hcan]
      have hstepped := affected_of_touched
        (Playback.touched_stepForward Execution.instant_workload hfree (s.patience 0))
      have hstep : s.stepProgram.1.execution
          = (s.playback.stepForward Execution.workload (s.patience 0)).1.work := rfl
      rw [← hstep] at hstepped
      generalize s.stepProgram = result at hstepped ⊢
      obtain ⟨s', outcome⟩ := result
      cases outcome <;> exact hstepped
  · unfold Session.forward
    rw [if_neg hstarted]
    have hloaded := s.execution_load
    have houtcome := s.outcome_load
    have hgate : s.load.1.playback.gate = .free := hfree
    generalize s.load = result at hloaded houtcome hgate ⊢
    obtain ⟨s', outcome⟩ := result
    have hkept : Affected s.execution s'.execution := by
      rw [hloaded]
      exact .loaded
    split
    next he =>
      -- the run was loaded, and its first step is taken
      injection he with hs hok
      subst hs
      have htouched := Playback.touched_stepForward (p := s'.playback.pause)
        Execution.instant_workload hgate (Session.patience ⟨s'.playback.pause⟩ 0)
      have hbegun : Affected s.execution (Session.stepProgram ⟨s'.playback.pause⟩).1.execution := by
        rcases htouched with hstill | ⟨n, hwork, -, -⟩
        · have hsame : (Session.stepProgram ⟨s'.playback.pause⟩).1.execution = s'.execution :=
            hstill.work_eq
          rw [hsame]
          exact hkept
        · have hstep : (Session.stepProgram ⟨s'.playback.pause⟩).1.execution
              = s'.execution.step.1 := hwork
          rw [hstep, hloaded]
          exact .begun (houtcome ▸ hok)
      simp only
      generalize Session.stepProgram ⟨s'.playback.pause⟩ = stepped at hbegun ⊢
      obtain ⟨s'', outcome'⟩ := stepped
      cases outcome' <;> exact hbegun
    next he =>
      injection he with hs
      subst hs
      exact hkept
    next he =>
      injection he with hs
      subst hs
      exact hkept

/-- Every operation but a reset does one of the few things to the execution. -/
theorem perform_affected {s : Session} (hfree : s.playback.gate = .free) {op : Operation}
    (hop : op ≠ .reset) : Affected s.execution (s.perform op).execution := by
  cases op with
  | setSource text =>
    show Affected s.execution (s.setSource text).1.execution
    rcases s.setSource_fst text with hlocked | hchanged
    · rw [hlocked]
      exact .refl _
    · rw [hchanged]
      exact .moved text s.execution.history.cursor
  | start =>
    show Affected s.execution s.start.1.execution
    rw [execution_start]
    exact .loaded
  | toggle => exact s.affected_toggle
  | forward => exact affected_forward hfree
  | back =>
    show Affected s.execution s.back.1.execution
    rw [execution_back]
    exact .moved s.execution.source _
  | reset => exact absurd rfl hop
  | pause => exact .refl _
  | setSpeed ms => exact .refl _
  | setTurbo on => exact .refl _
  | drain => exact .refl _
  | attend => exact .refl _
  | move m => exact affected_of_touched (Playback.touched_move Execution.instant_workload hfree m)
  | elapseTo time => exact .refl _

end Session

end Retrace
