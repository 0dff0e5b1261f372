import Retrace.Proofs.Session.FailedStep
import Retrace.Proofs.Session.Restart
import Retrace.Proofs.Playback.Agreement
/-!
# A failed run can complete

A player that failed has nothing more to play, and neither has one that came to the end of its trace: a
step finds no more to do in either case (`Execution.Over.step_eq`). So a session whose run has failed is
completed by the next step that someone asks for, and by nothing else (`failed_run_completes`). It is
enough to toggle it and to wait (`Halted.await_toggle`), or to go forward from the last snapshot
(`failed_then_completed`).

That playback is completed only with the observers being told is an induction on the operations
(`Configured.completed_run`).
-/

namespace Retrace

namespace Session

variable {c : Config} {bounds : DelayBounds} {s u v : Session} {op : Operation}

/-- After a failing step there is nothing more to play. -/
theorem Configured.over_perform (hconf : Configured c bounds s)
    (hstate : IsIdle c s ∨ ∃ t captured, IsPlaying c t s captured) {e : RunFailure}
    (hsteps : s.Steps op v)
    (hfails : (v.execution.player.stepToNextLine v.execution.maxMicroSteps).2 = .error e) :
    Halted v (s.perform op) ∧ (s.perform op).execution.Over := by
  obtain ⟨hstarted, -, q, hperform, hwork, hopen, -⟩ := hsteps.fails hconf.tidy hstate hfails
  obtain ⟨hhalted, hover, -⟩ := halted_fail hwork hopen hstarted hfails
  rw [hperform]
  exact ⟨hhalted, hover⟩

/-- Whoever toggles a session whose run has just failed, and waits, sees it completed. -/
theorem Halted.await_toggle (h : Halted v u) (hover : u.execution.Over) (ht : u.playback.Tidy) :
    let played := { u.playback.status with state := .playing, playing := true, paused := false }
    let ended := { played with state := .completed, playing := false, completed := true }
    let z := u.toggle.1.await none
    z.2 = true ∧ z.1.playback.status = ended ∧
    z.1.execution = { u.execution with counters := u.execution.counters.finish } ∧
    z.1.playback.log.toList
      = u.playback.log.toList ++ [.status played, .status ended, .completed] := by
  intro played ended z
  have hplay : u.playback.play.1 = { u.playback with
      run := u.playback.run + 1
      cancelled := false
      status := played
      log := u.playback.log.push (.status played)
      fresh := u.playback.fresh ++ [u.playback.run + 1]
      awaitable := some (u.playback.run + 1) } := by
    unfold Playback.play
    rw [h.not_completed]
    rfl
  have htoggled : u.toggle.1 = ⟨u.playback.play.1⟩ := by
    unfold Session.toggle Playback.toggle
    rw [if_pos hover.started, h.not_completed, h.not_playing]
    rfl
  -- the loops of earlier runs that are still there begin before the new one
  have holder : ∀ run ∈ u.playback.loops, run ≠ u.playback.run + 1 := by
    intro run hrun
    have hle := ht.started run hrun
    omega
  have hrunning : played.isRunning = true :=
    Status.isRunning_iff.mpr ⟨rfl, rfl, h.not_completed⟩
  have hawaited := await_of_done ((congrArg Session.playback htoggled).trans hplay) ht.free rfl
    (fun run hrun => holder run (List.mem_append_left _ hrun))
    (fun sleeper hsleeper => holder _ (List.mem_append_right _ (List.mem_map_of_mem hsleeper)))
    rfl hrunning rfl hover.done
  have hz : z = _ := hawaited
  rw [hz]
  unfold Playback.complete
  rw [if_neg (show ¬ played.completed = true from Bool.eq_false_iff.mp h.not_completed)]
  refine ⟨rfl, rfl, rfl, ?_⟩
  show (((u.playback.log.push _).push _).push _).toList = _
  simp only [Array.toList_push, List.append_assoc]
  rfl

/-- An operation completes a session that has nothing more to play only by a step, of which observers are
told. -/
theorem completed_perform (ht : s.playback.Tidy) (h : s.execution.Over) (hop : op ≠ .reset) :
    (s.TakesStep op → (s.perform op).playback.status.completed = true) ∧
    ((s.perform op).playback.status.completed = true →
      s.playback.status.completed = true ∨ .completed ∈ s.told op) := by
  by_cases hdrain : op = .drain
  · subst hdrain
    exact ⟨fun ⟨_, _, hsteps⟩ => (nomatch hsteps), Or.inl⟩
  · cases finds_perform ht h hop hdrain with
    | step htaken _ hcompleted =>
      exact ⟨fun _ => hcompleted, fun _ => Or.inr ((mem_told_of_result ht h hop rfl).mpr ⟨rfl, htaken⟩)⟩
    | nothing htaken _ hkept => exact ⟨fun htakes => absurd htakes htaken, fun hc => Or.inl (hkept hc)⟩

/-- The induction is on the operations: if none of them tells of the completion, there is none. -/
theorem Configured.completed_run (hconf : Configured c bounds s) (h : s.execution.Over)
    {later : List Operation} (hlater : .reset ∉ later)
    (hcompleted : (s.run later).playback.status.completed = true) :
    s.playback.status.completed = true ∨ ∃ earlier op rest, later = earlier ++ op :: rest ∧
      .completed ∈ (s.run earlier).told op := by
  induction later generalizing s with
  | nil => exact Or.inl hcompleted
  | cons op later ih =>
    rw [List.mem_cons, not_or] at hlater
    have hop : op ≠ .reset := fun he => hlater.1 he.symm
    obtain ⟨hover, -⟩ := h.affected (perform_affected hconf.tidy.free hop)
    rcases ih (hconf.perform op) hover hlater.2 hcompleted with hfirst | ⟨earlier, op', rest, rfl, htold⟩
    · rcases (completed_perform hconf.tidy h hop).2 hfirst with hbefore | htold
      · exact Or.inl hbefore
      · exact Or.inr ⟨[], op, later, rfl, htold⟩
    · exact Or.inr ⟨op :: earlier, op', rest, rfl, htold⟩

end Session

open Session in
/-- Take any session with a valid configuration, after any operations, and an operation that takes a step
of the program which fails. Playback is stopped and not completed then. But whoever toggles the session and
waits sees it completed, and observers are told so, with the history, the call tree and the counters of the
failed run. After any operations but a reset the session is completed only if observers were told of it by
one of them, and an operation tells of it, and completes the session, exactly if the session is not
completed and a step of the program is taken: by the loop of a run, or by the user who goes forward from
the last snapshot. -/
theorem failed_run_completes {c : Config} {s v : Session} {op : Operation} {e : RunFailure}
    (hnew : new? c = .ok s) (before : List Operation) (hsteps : (s.run before).Steps op v)
    (hfails : (v.execution.player.stepToNextLine v.execution.maxMicroSteps).2 = .error e) :
    let u := (s.run before).perform op
    let z := u.toggle.1.await none
    (u.playback.status.completed = false ∧ z.2 = true ∧ z.1.playback.status.completed = true ∧
      .completed ∈ z.1.playback.log.toList.drop u.playback.log.size ∧
      z.1.execution = { u.execution with counters := u.execution.counters.finish }) ∧
    ∀ later, .reset ∉ later →
      let x := u.run later
      (x.playback.status.completed = true → ∃ earlier next rest, later = earlier ++ next :: rest ∧
        .completed ∈ (u.run earlier).told next) ∧
      ∀ next, next ≠ .reset →
        (.completed ∈ x.told next ↔ x.playback.status.completed = false ∧ ∃ w, x.Steps next w) ∧
        (.completed ∈ x.told next → (x.perform next).playback.status.completed = true) := by
  intro u z
  obtain ⟨bounds, rfl⟩ := eq_of_new? hnew
  obtain ⟨hidle, hc⟩ := isIdle_of_new? hnew
  have hbefore := (configured_new c bounds).run before
  obtain ⟨hhalted, hover⟩ :=
    hbefore.over_perform (idle_or_playing hc (Or.inl hidle) before) hsteps hfails
  have hconf : Configured c bounds u := hbefore.perform op
  obtain ⟨hended, hstatus, hexecution, hlog⟩ := hhalted.await_toggle hover hconf.tidy
  refine ⟨⟨hhalted.not_completed, hended, congrArg Status.completed hstatus, ?_, hexecution⟩,
    fun later hlater => ⟨fun hcompleted => ?_, fun next hnext => ?_⟩⟩
  · show .completed ∈ (u.toggle.1.await none).1.playback.log.toList.drop u.playback.log.size
    rw [hlog, ← Array.length_toList, List.drop_left]
    simp
  · rcases hconf.completed_run hover hlater hcompleted with hfirst | htold
    · exact nomatch hhalted.not_completed.symm.trans hfirst
    · exact htold
  · have hover' := (hconf.over_run hover hlater).1
    have htidy := (hconf.run later).tidy
    have htold := mem_told_of_result htidy hover' hnext (r := .completed) rfl
    refine ⟨htold.trans ⟨And.right, fun h => ⟨rfl, h⟩⟩, fun hmem => ?_⟩
    exact (completed_perform htidy hover' hnext).1 (htold.mp hmem).2

open Session in
/-- The third step of a run fails; the session is toggled and waited for. -/
theorem toggled_after_boom :
    let ops := [.setSource Trace.brokenText, .start, .move (.begin 1), .forward]
    let v := Session.standard.run ops
    let z := (v.perform .forward).toggle.1.await none
    new? .standard = .ok .standard ∧ v.Steps .forward v
    ∧ (v.execution.player.stepToNextLine v.execution.maxMicroSteps).2 = .error (.runtime "boom")
    ∧ z.2 = true ∧ z.1.playback.status.completed = true := by
  intro ops v z
  have hnew : new? .standard = .ok .standard := by rfl
  have hsteps : v.Steps .forward v := .hand (by decide +kernel) (by decide +kernel)
  have hfails : (v.execution.player.stepToNextLine v.execution.maxMicroSteps).2
      = .error (.runtime "boom") := by decide +kernel
  obtain ⟨⟨-, hended, hcompleted, -⟩, -⟩ := failed_run_completes hnew ops hsteps hfails
  exact ⟨hnew, hsteps, hfails, hended, hcompleted⟩

/-- A run is played until its third step fails, and the failure is the one result that observers are told.
Going forward from the last snapshot then completes the session, and observers are told that too. -/
theorem failed_then_completed :
    let u := ((Session.standard.run [.setSource Trace.brokenText, .start]).await none).1
    let results := u.playback.log.toList.filter Event.isResult
    let results' := u.forward.1.playback.log.toList.filter Event.isResult
    (u.execution.player.failure = some (.runtime "boom") ∧ u.playback.status.completed = false
      ∧ results.length = 1 ∧ results.countP Event.isCompletion = 0) ∧
    (u.forward.1.playback.status.completed = true
      ∧ results'.length = 2 ∧ results'.countP Event.isCompletion = 1) := by
  decide +kernel

end Retrace
