import Retrace.Proofs.Playback.Instant
/-!
# What observers are told of results

Of all that observers are told two things are results: that there is no more to do, and a failure. The
controls tell of states only; a result is told where a step is settled, and there at most one
(`verdict`), if the step counts for its taker (`heeds`).

`Reports` relates two moments of playback by the results told in between, in their order. So the
results of a whole run are put together from those of its parts.
-/

namespace Retrace

/-- Whether observers are told a result: that there is no more to do, or a failure. -/
def Event.isResult : Event → Bool
  | completed => true
  | failed _ => true
  | _ => false

namespace Playback

variable {σ : Type} {w : Workload σ} {p q r : Playback σ} {results results' : List Event}

/-- From the first to the second observers were told more, and these are the results among it. -/
def Reports (p q : Playback σ) (results : List Event) : Prop :=
  ∃ events, q.log.toList = p.log.toList ++ events ∧ events.filter Event.isResult = results

theorem reports_of_events (events : List Event) (h : q.log.toList = p.log.toList ++ events) :
    p.Reports q (events.filter Event.isResult) := ⟨events, h, rfl⟩

theorem reports_of_log_eq (h : q.log = p.log) : p.Reports q [] :=
  reports_of_events [] (by rw [h, List.append_nil])

theorem Reports.refl (p : Playback σ) : p.Reports p [] := reports_of_log_eq rfl

theorem Reports.trans (h : p.Reports q results) (h' : q.Reports r results') :
    p.Reports r (results ++ results') := by
  obtain ⟨events, hlog, rfl⟩ := h
  obtain ⟨events', hlog', rfl⟩ := h'
  refine ⟨events ++ events', ?_, List.filter_append ..⟩
  rw [hlog', hlog, List.append_assoc]

theorem Reports.after (h : q.Reports r results) (h' : p.Reports q []) : p.Reports r results :=
  h'.trans h

theorem Reports.then (h : p.Reports q results) (h' : q.Reports r []) : p.Reports r results := by
  have hboth := h.trans h'
  rwa [List.append_nil] at hboth

/-- The results among what was told since. -/
theorem Reports.filter_drop (h : p.Reports q results) :
    (q.log.toList.drop p.log.size).filter Event.isResult = results := by
  obtain ⟨events, hlog, hresults⟩ := h
  have hdrop : q.log.toList.drop p.log.size = events := by
    rw [hlog, ← Array.length_toList, List.drop_left]
  rw [hdrop, hresults]

/-! ## Controls -/

theorem reports_notify (p : Playback σ) (e : Event) :
    p.Reports (p.notify e) ([e].filter Event.isResult) :=
  reports_of_events [e] Array.toList_push

/-- From the first to the second observers were told of states, and of nothing else. -/
def TellsStates (p q : Playback σ) : Prop :=
  ∃ told : List Status, q.log.toList = p.log.toList ++ told.map .status

theorem TellsStates.refl (p : Playback σ) : p.TellsStates p := ⟨[], by simp⟩

theorem TellsStates.trans (h : p.TellsStates q) (h' : q.TellsStates r) : p.TellsStates r := by
  obtain ⟨told, hlog⟩ := h
  obtain ⟨told', hlog'⟩ := h'
  refine ⟨told ++ told', ?_⟩
  rw [hlog', hlog, List.append_assoc, List.map_append]

/-- States are no results. -/
theorem TellsStates.reports (h : p.TellsStates q) : p.Reports q [] := by
  obtain ⟨told, hlog⟩ := h
  refine ⟨told.map .status, hlog, ?_⟩
  simp [Event.isResult]

theorem tellsStates_enterState (p : Playback σ) (s : PlaybackState) : p.TellsStates (p.enterState s) :=
  ⟨[{ p.status with state := s }], Array.toList_push⟩

theorem tellsStates_play (p : Playback σ) : p.TellsStates p.play.1 := by
  unfold play
  split
  · exact .refl p
  · exact tellsStates_enterState { p with
      run := p.run + 1
      cancelled := false
      status := { p.status with playing := true, paused := false } } .playing

theorem tellsStates_pause (p : Playback σ) : p.TellsStates p.pause :=
  tellsStates_enterState { p with status := { p.status with paused := true } } .paused

theorem tellsStates_stop (p : Playback σ) : p.TellsStates p.stop :=
  tellsStates_enterState { p with
    cancelled := true
    status := { p.status with playing := false, paused := false } } .stopped

theorem tellsStates_reset (p : Playback σ) : p.TellsStates p.reset :=
  p.tellsStates_stop.trans (tellsStates_enterState { p.stop with
    status := { p.stop.status with currentStep := 0, totalSteps := 0, completed := false } } .reset)

theorem tellsStates_toggle (p : Playback σ) : p.TellsStates p.toggle := by
  unfold toggle
  split
  · exact p.tellsStates_reset.trans p.reset.tellsStates_play
  · split
    · exact p.tellsStates_pause
    · exact p.tellsStates_play

theorem tellsStates_resumeFromCompleted (p : Playback σ) :
    p.TellsStates p.resumeFromCompleted.1 := by
  unfold resumeFromCompleted
  split
  · exact tellsStates_enterState { p with
      status := { p.status with completed := false, paused := true } } .paused
  · exact .refl p

theorem tellsStates_heldUp (p : Playback σ) : p.TellsStates p.heldUp := by
  unfold heldUp
  split
  · exact p.tellsStates_pause
  · exact .refl p

/-! ## What is told of a step -/

/-- The results that are told of a step that counts. That there is no more to do is told once. -/
def verdict (p : Playback σ) : StepOutcome → List Event
  | .more => []
  | .finished => if p.status.completed then [] else [.completed]
  | .failed e => [.failed e]

/-- Whether a step of someone counts when it is over: one of a loop counts while its run is live. -/
def heeds (p : Playback σ) : Stepper → Bool
  | .loop run => p.isLive run
  | .hand _ => true

/-- A completion is told after the state that is entered by it, unless it is known. -/
theorem complete_cases (p : Playback σ) : p.status.completed = true ∧ p.complete = p ∨
    p.status.completed = false ∧
      ∃ q, p.TellsStates q ∧ q.work = p.work ∧ p.complete = q.notify .completed := by
  cases hcompleted : p.status.completed with
  | true => exact Or.inl ⟨rfl, if_pos hcompleted⟩
  | false =>
    have hentered := tellsStates_enterState { p with
      status := { p.status with playing := false, paused := false, completed := true } } .completed
    refine Or.inr ⟨rfl, _, hentered, rfl, ?_⟩
    unfold complete
    rw [hcompleted, if_neg Bool.false_ne_true]

theorem reports_complete (p : Playback σ) : p.Reports p.complete (p.verdict .finished) := by
  unfold verdict
  rcases p.complete_cases with ⟨hcompleted, hsame⟩ | ⟨hopen, q, htells, -, hcomplete⟩
  · rw [hsame, hcompleted, if_pos rfl]
    exact .refl p
  · rw [hcomplete, hopen, if_neg Bool.false_ne_true]
    exact (q.reports_notify .completed).after htells.reports

theorem reports_fail (p : Playback σ) (e : SessionFailure) :
    p.Reports (p.fail e) (p.verdict (.failed e)) :=
  (p.reports_notify (.failed e)).then (tellsStates_stop _).reports

theorem reports_afterLoopStep (p : Playback σ) (run : Nat) (outcome : StepOutcome) :
    p.Reports (p.afterLoopStep run outcome) (if p.isLive run then p.verdict outcome else []) := by
  unfold afterLoopStep
  split
  · cases outcome with
    | more => exact reports_of_log_eq rfl
    | finished => exact p.reports_complete
    | failed e => exact p.reports_fail e
  · exact .refl p

theorem reports_afterHandStep (p : Playback σ) (ticket : Nat) (outcome : StepOutcome) :
    p.Reports (p.afterHandStep ticket outcome) (p.verdict outcome) := by
  cases outcome with
  | more => exact reports_of_log_eq rfl
  | finished => exact p.reports_complete.then (reports_of_log_eq rfl)
  | failed e => exact (p.reports_fail e).then (reports_of_log_eq rfl)

/-- Counting a step and giving the gate away tell nothing, so a step is told of as its taker takes it. -/
theorem reports_settle (p : Playback σ) (holder : Stepper) (outcome : StepOutcome)
    (waiting : List Stepper) : p.Reports (p.settle holder outcome waiting)
      (if p.heeds holder then p.verdict outcome else []) := by
  unfold settle
  simp only
  generalize hcounted : (if outcome = .more then p.status.countStep else p.status) = status
  have hsame : Playback.verdict { p with status := status, gate := .released waiting } outcome
      = p.verdict outcome := by
    cases outcome with
    | more => rfl
    | failed e => rfl
    | finished =>
      rw [← hcounted]
      rfl
  rw [← hsame]
  cases holder with
  | loop run => exact reports_afterLoopStep { p with
      status := status, gate := .released waiting } run outcome
  | hand ticket => exact reports_afterHandStep { p with
      status := status, gate := .released waiting } ticket outcome

/-- A step that has just been taken tells what it tells itself, and is told of at once if it takes no
time. -/
theorem reports_takeStep (p : Playback σ) (s : Stepper) (waiting : List Stepper) :
    p.Reports (p.takeStep w s waiting)
      ((w p.status.currentStep p.work).events.filter Event.isResult
        ++ if (w p.status.currentStep p.work).durationMs = 0 then
            if p.heeds s then p.verdict (w p.status.currentStep p.work).outcome else []
          else []) := by
  unfold takeStep
  generalize w p.status.currentStep p.work = a
  simp only
  generalize hq : ({ p with work := a.work, log := p.log ++ a.events.toArray } : Playback σ) = q
  have htold : p.Reports q (a.events.filter Event.isResult) := by
    rw [← hq]
    exact reports_of_events a.events (by simp)
  have hheeds : q.heeds s = p.heeds s := by
    rw [← hq]
    rfl
  have hverdict : q.verdict a.outcome = p.verdict a.outcome := by
    rw [← hq]
    rfl
  split
  · rw [← hheeds, ← hverdict]
    exact htold.trans (q.reports_settle s a.outcome waiting)
  · rw [List.append_nil]
    have hlog : p.log ++ a.events.toArray = q.log := congrArg Playback.log hq
    exact htold.then (reports_of_log_eq hlog)

end Playback

end Retrace
