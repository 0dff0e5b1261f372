import Mathlib.Data.List.DropRight
import Retrace.Proofs.Session.Forward
/-!
# A step from the last snapshot

A session that is driven by hand alone captures only with the cursor on the last snapshot. So its history
never drops a redo branch: it retains the latest snapshots captured, as many as there is room for
(`Navigated`). From the last snapshot a step by hand captures the next stop, or comes to the end of the
run, or finds that it is completed (`Navigated.advance`).
-/

namespace Retrace

/-- The last elements of a list that has got one more. -/
theorem rtake_concat {α : Type} {n : Nat} (hn : 0 < n) (l : List α) (a : α) :
    (l ++ [a]).rtake n = (if (l.rtake n).length = n then (l.rtake n).drop 1 else l.rtake n) ++ [a] := by
  obtain ⟨n, rfl⟩ := Nat.exists_eq_succ_of_ne_zero (Nat.ne_of_gt hn)
  rw [List.rtake_concat_succ]
  congr 1
  unfold List.rtake
  rw [List.length_drop, List.drop_drop]
  split
  · congr 1
    omega
  · rw [Nat.sub_eq_zero_of_le (by omega), Nat.sub_eq_zero_of_le (by omega)]

theorem Counters.finish_eq_iff {c : Counters} :
    c.finish = c ↔ (c.finished || c.started) = c.finished := by
  constructor
  · exact congrArg finished
  · intro h
    unfold finish
    rw [h]

namespace Execution

/-- A step leaves the history alone, or appends one snapshot to it and counts that. The snapshot has the
number of the small step that the player has come to. -/
theorem history_step (x : Execution) : x.step.1.history = x.history ∨ ∃ shown,
    x.step.1.history = ({ x.history with captures := x.history.captures + 1 }.append shown).1
      ∧ shown.position.stepNumber = x.step.1.player.stepCount := by
  have hstep := x.stepResult
  generalize x.step = r at hstep
  cases hstep with
  | idle => exact Or.inl rfl
  | failed => exact Or.inl rfl
  | @onward p line =>
    cases hposition : (x.atLine p line).player.probe.position with
    | none =>
      rw [capture_of_no_position hposition]
      exact Or.inl rfl
    | some position =>
      rw [history_capture hposition, capture_frame]
      obtain ⟨e, -, rfl⟩ := Option.map_eq_some_iff.mp hposition
      exact Or.inr ⟨_, rfl, rfl⟩

/-- A step that counts no capture leaves the history alone. -/
theorem history_step_of_captures_eq {x : Execution}
    (h : x.step.1.history.captures = x.history.captures) : x.step.1.history = x.history := by
  rcases x.history_step with hsame | ⟨shown, happended, -⟩
  · exact hsame
  · rw [happended, History.append_captures] at h
    exact absurd h (Nat.succ_ne_self _)

/-- A step that counts a capture appends what is then the current snapshot. -/
theorem history_step_of_captures_ne {x : Execution} (hv : x.history.Valid) {shown : Snapshot}
    (h : x.step.1.history.captures ≠ x.history.captures)
    (hcurrent : x.step.1.history.current? = some shown) : x.step.1.history
      = ({ x.history with captures := x.history.captures + 1 }.append shown).1 := by
  rcases x.history_step with hsame | ⟨other, happended, -⟩
  · exact absurd (congrArg History.captures hsame) h
  · rw [happended, (hv.withCaptures _).append_current] at hcurrent
    rw [happended, Option.some.inj hcurrent]

/-- Taking notice of a snapshot does not change whether the run counts as finished. -/
theorem finish_observe {x : Execution} (h : x.counters.finish = x.counters) (s : Snapshot) :
    (x.observe s).1.counters.finish = (x.observe s).1.counters := by
  rw [Counters.finish_eq_iff] at h ⊢
  unfold observe
  rcases x.baseline.observe s with ⟨baseline, transition⟩
  cases transition with
  | seeded | unchanged => exact h
  | entered call => cases call <;> exact h
  | returned value step => exact h

/-- After a step that finds nothing more to play the run counts as finished. -/
theorem finish_step {x : Execution} (h : x.step.2.2 = .finished) :
    x.step.1.counters.finish = x.step.1.counters := by
  have hfinished : ∀ c : Counters, c.finish.finish = c.finish := fun c => by
    simp [Counters.finish]
  have hstep := x.stepResult
  generalize x.step = r at hstep h
  cases hstep with
  | idle => exact hfinished _
  | failed => exact nomatch h
  | @onward p line =>
    cases hmore : line.hasMore with
    | true =>
      rw [hmore] at h
      exact nomatch h
    | false =>
      have hcounters : (x.atLine p line).counters = x.counters.countStep.finish := by
        rw [atLine, hmore]
        rfl
      have hbefore : (x.atLine p line).counters.finish = (x.atLine p line).counters := by
        rw [hcounters, hfinished]
      cases hposition : (x.atLine p line).player.probe.position with
      | none =>
        rw [capture_of_no_position hposition]
        exact hbefore
      | some position =>
        rw [capture_of_position hposition]
        refine finish_observe ?_ _
        exact hbefore

end Execution

namespace Session

variable {c : Config} {bounds : DelayBounds} {t : Trace} {s u v : Session}
  {captured : List Snapshot}

/-! ## A step from the last snapshot -/

/-- A session that plays a trace and was driven by hand alone. -/
structure Navigated (c : Config) (t : Trace) (s : Session) (captured : List Snapshot) : Prop
    extends IsPlaying c t s captured where
  retained : s.execution.history.retained.toList = captured.rtake s.execution.history.capacity
  settled : s.playback.status.completed = true →
    s.execution.history.canStepForward = false ∧ s.execution.counters.finish = s.execution.counters

/-- What a step by hand comes to that is taken from the last snapshot. -/
inductive Advance (c : Config) (t : Trace) (s : Session) (captured : List Snapshot) : Prop where
  /-- There is nothing more to play, and that is known. -/
  | nothing (hcompleted : s.playback.status.completed = true)
      (hsame : s.programmed = ⟨s.playback.ticketed⟩) (hanswer : s.answer = .ok false)
  /-- The next stop is captured. -/
  | captures (shown : Snapshot) (hopen : s.playback.status.completed = false)
      (hnavigated : Navigated c t s.programmed (captured ++ [shown]))
      (hcurrent : s.programmed.current? = some shown) (hanswer : s.answer = .ok true)
  /-- Nothing more can be played. -/
  | ends (hopen : s.playback.status.completed = false)
      (hnavigated : Navigated c t s.programmed captured)
      (hsame : s.programmed.execution.history = s.execution.history)
      (hanswer : s.answer = .ok false ∨ ∃ e, s.answer = .error e)

/-- A history that is stepped from its last snapshot retains what it captured, as far as there is
room. -/
theorem Navigated.retained_append (h : Navigated c t s captured)
    (hend : s.execution.history.canStepForward = false) (shown : Snapshot) :
    ({ s.execution.history with captures := s.execution.history.captures + 1 }.append
      shown).1.retained.toList = (captured ++ [shown]).rtake s.execution.history.capacity := by
  have hvalid := h.playing.history
  have happended := (hvalid.withCaptures (s.execution.history.captures + 1)).append_retained_last
    hend shown
  rw [rtake_concat hvalid.capacity_pos, ← h.retained]
  exact happended

theorem navigated_of_step {p : Playback Execution} (hwork : p.work = s.execution.step.1)
    (hfree : p.gate = .free) (hplaying : Execution.Playing c t s.execution.step.1 captured)
    (hretained : s.execution.step.1.history.retained.toList
      = captured.rtake s.execution.step.1.history.capacity)
    (hsettled : p.status.completed = true → s.execution.step.1.player.isDone = true ∧
      s.execution.step.1.history.canStepForward = false ∧
      s.execution.step.1.counters.finish = s.execution.step.1.counters) :
    Navigated c t ⟨p⟩ captured := by
  rw [← hwork] at hplaying hretained hsettled
  exact ⟨⟨hplaying, hfree, fun h => (hsettled h).1⟩, hretained, fun h => (hsettled h).2⟩

theorem Navigated.advance (hc : 0 < c.maxMicroSteps) (h : Navigated c t s captured)
    (hend : s.execution.history.canStepForward = false) : Advance c t s captured := by
  by_cases hcompleted : s.playback.status.completed = true
  · have hdone := Playback.byHand_of_completed (w := Execution.workload)
      (p := s.playback.ticketed) hcompleted
    refine .nothing hcompleted ?_ (congrArg Prod.snd hdone)
    unfold programmed
    rw [hdone]
  have hopen : s.playback.status.completed = false := Bool.eq_false_iff.mpr hcompleted
  -- the step is taken with a running loop held up
  have hbyHand : s.playback.ticketed.byHand Execution.workload = _ := if_neg hcompleted
  obtain ⟨hwork, hkept⟩ := s.playback.ticketed.heldUp_frame
  have hfree : s.playback.ticketed.heldUp.gate = .free :=
    (Playback.sameLoops_heldUp _).gate.trans h.free
  generalize s.playback.ticketed.heldUp = p at hbyHand hwork hkept hfree
  have hstepped : (p.stepped Execution.workload).work = s.execution.step.1 := by
    show p.work.step.1 = _
    rw [hwork]
    rfl
  have hstill : (p.stepped Execution.workload).status.completed = false :=
    (p.counted_completed _).trans (hkept.trans hopen)
  have houtcome : p.outcome Execution.workload = s.execution.step.2.2 := by
    show p.work.step.2.2 = _
    rw [hwork]
    rfl
  have hstep := h.playing.step hc
  generalize houtcome' : s.execution.step.2.2 = outcome at hstep houtcome
  rw [houtcome] at hbyHand
  cases hstep with
  | more shown hplaying hcurrent =>
    have hprogrammed : s.programmed = ⟨p.stepped Execution.workload⟩ :=
      congrArg (fun r => Session.mk r.1) hbyHand
    have hhistory := Execution.history_step_of_captures_ne h.playing.history
      (by rw [hplaying.captures, h.playing.captures]; simp) hcurrent
    have hretained := h.retained_append hend shown
    refine .captures shown hopen ?_ ?_ (congrArg Prod.snd hbyHand)
    · rw [hprogrammed]
      refine navigated_of_step hstepped hfree hplaying ?_ fun hc => nomatch hstill.symm.trans hc
      rw [hhistory, hretained, History.append_capacity]
    · rw [hprogrammed]
      show (p.stepped Execution.workload).work.history.current? = _
      rw [hstepped, hcurrent]
  | exhausted hplaying hdone hmore hfailed =>
    have hhistory := Execution.history_step_of_captures_eq
      (hplaying.captures.trans h.playing.captures.symm)
    have hretained : s.execution.step.1.history.retained.toList
        = captured.rtake s.execution.step.1.history.capacity := by
      rw [hhistory]
      exact h.retained
    cases outcome with
    | more => exact absurd rfl hmore
    | finished =>
      have hprogrammed : s.programmed = ⟨(p.stepped Execution.workload).complete⟩ :=
        congrArg (fun r => Session.mk r.1) hbyHand
      have hwork' := (Playback.complete_work _).trans hstepped
      refine .ends hopen ?_ ?_ (Or.inl (congrArg Prod.snd hbyHand))
      · rw [hprogrammed]
        refine navigated_of_step hwork' ((Playback.complete_gate _).trans hfree) hplaying hretained
          fun _ => ⟨hdone, ?_, Execution.finish_step houtcome'⟩
        rw [hhistory]
        exact hend
      · rw [hprogrammed]
        exact (congrArg Execution.history hwork').trans hhistory
    | failed e =>
      have hprogrammed : s.programmed = ⟨(p.stepped Execution.workload).fail e⟩ :=
        congrArg (fun r => Session.mk r.1) hbyHand
      refine .ends hopen ?_ ?_ (Or.inr ⟨e, congrArg Prod.snd hbyHand⟩)
      · rw [hprogrammed]
        exact navigated_of_step hstepped hfree hplaying hretained
          fun hc => nomatch hstill.symm.trans hc
      · rw [hprogrammed]
        exact (congrArg Execution.history hstepped).trans hhistory

end Session

end Retrace
