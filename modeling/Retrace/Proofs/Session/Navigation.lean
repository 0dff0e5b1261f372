import Retrace.Proofs.Playback.Results
import Retrace.Proofs.Session.Advance
/-!
# Going back and forth by hand

In a session that is driven by hand the user goes back and forth in the latest snapshots. Going forward
before the last of them replays, and on the last one it takes a single step of the program; either way
the answer is the snapshot that is now under the cursor, if it is another one (`Answers`).

A completed run has nothing more to play: going back from it takes the completion back, and on the way
forward again nothing of the run changes until the step after the last snapshot completes it once more
(`Revisits`).
-/

namespace Retrace

namespace Session

variable {c : Config} {bounds : DelayBounds} {t : Trace} {s u v : Session}
  {captured : List Snapshot}

/-! ## Back and forth -/

theorem Navigated.mem_of_retained (h : Navigated c t s captured) {a : Snapshot}
    (ha : a ∈ s.execution.history.retained.toList) : a ∈ captured := by
  rw [h.retained] at ha
  exact List.mem_of_mem_drop ha

theorem mem_of_current {a : Snapshot} (h : s.current? = some a) :
    a ∈ s.execution.history.retained.toList := by
  obtain ⟨i, -, hi⟩ := Option.bind_eq_some_iff.mp h
  exact Array.mem_toList_iff.mpr (Array.mem_of_getElem? hi)

/-- What was just captured was not there before. -/
theorem current_ne_of_captured (hc : 0 < c.maxMicroSteps) (h : Navigated c t s captured)
    {v : Session} {shown : Snapshot} (hv : IsPlaying c t v (captured ++ [shown])) :
    s.current? ≠ some shown := by
  intro hcurrent
  have hmem := h.mem_of_retained (mem_of_current hcurrent)
  have hincreasing := List.pairwise_map.mp (hv.playing.increasing hc)
  have hless := (List.pairwise_append.mp hincreasing).2.2 shown hmem shown List.mem_cons_self
  exact Nat.lt_irrefl _ hless

/-- The answer to going from the first session forward to the second: the snapshot now under the cursor,
if it is another one than before. -/
inductive Answers (s s' : Session) : Option Snapshot → Prop where
  | same (hcurrent : s'.current? = s.current?) : Answers s s' none
  | moved (shown : Snapshot) (hcurrent : s'.current? = some shown) (hother : s.current? ≠ some shown) :
      Answers s s' (some shown)

theorem Advance.navigated (h : Navigated c t s captured) (ha : Advance c t s captured) :
    Navigated c t s.programmed (captured ++ newlyCaptured s s.programmed) := by
  cases ha with
  | nothing hcompleted hsame hanswer =>
    have hcaptures : (⟨s.playback.ticketed⟩ : Session).execution.history.captures
        = s.execution.history.captures := rfl
    rw [hsame, newlyCaptured_of_eq hcaptures, List.append_nil]
    exact ⟨⟨h.playing, h.free, h.done_of_completed⟩, h.retained, h.settled⟩
  | captures shown hopen hnavigated hcurrent hanswer =>
    have hcaptures := hnavigated.playing.captures
    rw [List.length_append, ← h.playing.captures] at hcaptures
    rw [newlyCaptured_of_current hcaptures hcurrent]
    exact hnavigated
  | ends hopen hnavigated hsame hanswer =>
    rw [newlyCaptured_of_eq (congrArg History.captures hsame), List.append_nil]
    exact hnavigated

/-- A step from the last snapshot leaves the history alone, or shows another snapshot than before. -/
theorem Advance.shows (hc : 0 < c.maxMicroSteps) (h : Navigated c t s captured)
    (ha : Advance c t s captured) : s.programmed.execution.history = s.execution.history ∨
      ∃ shown, s.programmed.current? = some shown ∧ s.current? ≠ some shown ∧
        s.programmed.execution.history.captures ≠ s.execution.history.captures := by
  cases ha with
  | nothing hcompleted hsame hanswer =>
    rw [hsame]
    exact Or.inl rfl
  | captures shown hopen hnavigated hcurrent hanswer =>
    refine Or.inr ⟨shown, hcurrent, current_ne_of_captured hc h hnavigated.toIsPlaying, ?_⟩
    rw [hnavigated.playing.captures, h.playing.captures]
    simp
  | ends hopen hnavigated hsame hanswer => exact Or.inl hsame

theorem exists_of_map_ok {ε α β : Type} {e : Except ε α} {f : α → β} {b : β} (h : e.map f = .ok b) :
    ∃ a, f a = b := by
  cases e with
  | error e => cases h
  | ok a => exact ⟨a, Except.ok.inj h⟩

/-- The snapshot ahead is another one than the current one. -/
theorem Navigated.ne_of_ahead (hc : 0 < c.maxMicroSteps) (h : Navigated c t s captured) {i : Nat}
    {a b : Snapshot} (ha : s.execution.history.retained[i]? = some a)
    (hb : s.execution.history.retained[i + 1]? = some b) : a ≠ b := by
  have hincreasing : s.execution.history.retained.toList.Pairwise
      fun a b => a.position.stepNumber < b.position.stepNumber := by
    rw [h.retained]
    exact (List.pairwise_map.mp (h.playing.increasing hc)).sublist (List.drop_sublist _ _)
  rw [← Array.getElem?_toList] at ha hb
  obtain ⟨hi, hai⟩ := List.getElem?_eq_some_iff.mp ha
  obtain ⟨hj, hbj⟩ := List.getElem?_eq_some_iff.mp hb
  have hless := List.pairwise_iff_getElem.mp hincreasing i (i + 1) hi hj (Nat.lt_succ_self i)
  rw [hai, hbj] at hless
  rintro rfl
  exact Nat.lt_irrefl _ hless

theorem Navigated.forward (hc : 0 < c.maxMicroSteps) (ht : s.playback.Tidy)
    (h : Navigated c t s captured) :
    Navigated c t s.forward.1 (captured ++ newlyCaptured s s.forward.1) := by
  cases hcan : s.execution.history.canStepForward with
  | true =>
    have hmoved := execution_forward_of_replay h.playing.started hcan
    have hsame : s.forward.1.execution.history.captures = s.execution.history.captures := by
      rw [hmoved]
    refine ⟨h.toIsPlaying.forward hc, ?_, fun hcompleted => ?_⟩
    · rw [newlyCaptured_of_eq hsame, List.append_nil, hmoved]
      exact h.retained
    · rw [forward_of_ahead h.playing.started hcan] at hcompleted
      exact nomatch hcan.symm.trans (h.settled hcompleted).1
  | false =>
    rw [forward_of_last ht h.playing.started hcan]
    exact (h.advance hc hcan).navigated h

/-- Going forward before the last snapshot moves the cursor onto the next one and shows that. -/
theorem forward_of_shown (hstarted : s.execution.started = true) {i : Nat} {shown : Snapshot}
    (hcursor : s.execution.history.cursor = some i)
    (hshown : s.execution.history.retained[i + 1]? = some shown) :
    s.forward = ((s.withExecution { s.execution with
        history := { s.execution.history with cursor := some (i + 1) } }).notify [.snapshot shown],
      .ok (some shown)) := by
  have hlt : i + 1 < s.execution.history.size := (Array.getElem?_eq_some_iff.mp hshown).choose
  have hcan := History.canStepForward_iff.mpr ⟨i, hcursor, hlt⟩
  rw [forward_of_ahead hstarted hcan, History.stepForward_of_cursor hcursor hlt, hshown]
  rfl

theorem Navigated.forward_answers (hc : 0 < c.maxMicroSteps) (ht : s.playback.Tidy)
    (h : Navigated c t s captured) {r : Option Snapshot} (hr : s.forward.2 = .ok r) :
    Answers s s.forward.1 r := by
  cases hcan : s.execution.history.canStepForward with
  | true =>
    obtain ⟨i, hcursor, hlt⟩ := History.canStepForward_iff.mp hcan
    have hshown : s.execution.history.retained[i + 1]? = some s.execution.history.retained[i + 1] :=
      Array.getElem?_eq_getElem hlt
    rw [forward_of_shown h.playing.started hcursor hshown] at hr ⊢
    obtain rfl := Except.ok.inj hr
    refine .moved _ hshown fun hsame => ?_
    unfold Session.current? History.current? at hsame
    rw [hcursor] at hsame
    exact h.ne_of_ahead hc hsame hshown rfl
  | false =>
    rw [forward_of_last ht h.playing.started hcan] at hr ⊢
    obtain ⟨-, rfl⟩ := exists_of_map_ok hr
    rcases (h.advance hc hcan).shows hc h with hsame | ⟨shown, hcurrent, hother, hcaptures⟩
    · rw [if_pos (congrArg History.captures hsame)]
      exact .same (congrArg History.current? hsame)
    · rw [if_neg hcaptures, hcurrent]
      exact .moved shown hcurrent hother

/-- Going back succeeds from a place that is not the first, and takes a completion back. -/
theorem back_cases (s : Session) : s.back = (s, none) ∨
    ∃ i shown, s.execution.history.cursor = some (i + 1) ∧
      s.execution.history.retained[i]? = some shown ∧ s.back.2 = some shown ∧
      s.back.1.playback.status.completed = false := by
  cases hcan : s.execution.history.canStepBack with
  | false =>
    refine Or.inl ?_
    unfold Session.back
    rw [History.stepBack_of_not hcan]
  | true =>
    obtain ⟨i, hcursor⟩ := History.canStepBack_iff.mp hcan
    have hback := History.stepBack_of_cursor hcursor
    have hopen : ∀ p : Playback Execution, p.resumeFromCompleted.1.status.completed = false := by
      intro p
      unfold Playback.resumeFromCompleted
      split
      · rfl
      · rename_i hopen
        exact Bool.eq_false_iff.mpr hopen
    cases hshown : s.execution.history.retained[i]? with
    | none =>
      refine Or.inl ?_
      unfold Session.back
      rw [hback, hshown]
    | some shown =>
      refine Or.inr ⟨i, shown, hcursor, hshown, ?_⟩
      unfold Session.back
      rw [hback, hshown]
      exact ⟨rfl, hopen _⟩

theorem Navigated.back (h : Navigated c t s captured) : Navigated c t s.back.1 captured := by
  refine ⟨h.toIsPlaying.back, ?_, fun hcompleted => ?_⟩
  · rw [execution_back]
    exact h.retained
  · rcases s.back_cases with hsame | ⟨i, shown, -, -, -, hopen⟩
    · rw [hsame] at hcompleted ⊢
      exact h.settled hcompleted
    · exact nomatch hopen.symm.trans hcompleted

/-- Going forward after a step back shows the snapshot that was left. -/
theorem forward_of_back (hstarted : s.execution.started = true) (hv : s.execution.history.Valid)
    (hback : s.back.2.isSome = true) :
    ∃ shown, s.current? = some shown ∧ s.back.1.forward.2 = .ok (some shown) := by
  rcases s.back_cases with hsame | ⟨i, left, hcursor, hleft, -, -⟩
  · rw [hsame] at hback
    cases hback
  have hlt := hv.cursor_lt (i + 1) hcursor
  have hshown : s.execution.history.retained[i + 1]? = some s.execution.history.retained[i + 1] :=
    Array.getElem?_eq_getElem hlt
  have hcurrent : s.current? = some s.execution.history.retained[i + 1] := by
    unfold Session.current? History.current?
    rw [hcursor]
    exact hshown
  obtain ⟨-, hcursor'⟩ := back_of_cursor hcursor hleft
  have hstarted' : s.back.1.execution.started = true := by
    rw [execution_back]
    exact hstarted
  have hshown' : s.back.1.execution.history.retained[i + 1]?
      = some s.execution.history.retained[i + 1] := by
    rw [execution_back]
    exact hshown
  exact ⟨_, hcurrent, (forward_of_cursor hstarted' hcursor' hshown').1⟩

/-! ## The first step -/

/-- A session with nothing loaded shows nothing. -/
theorem IsIdle.current (h : IsIdle c s) : s.current? = none := by
  unfold Session.current? History.current?
  rw [h.idle.cursor]
  rfl

theorem IsIdle.primed_history (h : IsIdle c s) (hread : Trace.read s.source = .ok t) :
    s.primed.execution.history = s.execution.history := by
  rw [execution_primed, h.idle.start_eq hread]

theorem IsIdle.navigated_primed (h : IsIdle c s) (hread : Trace.read s.source = .ok t) :
    Navigated c t s.primed [] ∧ s.primed.execution.history.canStepForward = false := by
  obtain ⟨hloaded, -⟩ := h.load_of_read hread
  have hopen : s.primed.playback.status.completed = false := h.not_completed
  refine ⟨⟨hloaded.still s.load.1.playback.still_pause, ?_, fun hc => nomatch hopen.symm.trans hc⟩, ?_⟩
  · rw [h.primed_history hread, h.retained, List.rtake_nil]
  · rw [h.primed_history hread]
    unfold History.canStepForward
    rw [h.idle.cursor]
    rfl

theorem IsIdle.navigated_forward (hc : 0 < c.maxMicroSteps) (ht : s.playback.Tidy) (h : IsIdle c s)
    (hread : Trace.read s.source = .ok t) :
    Navigated c t s.forward.1 (newlyCaptured s s.forward.1) := by
  obtain ⟨hprimed, hend⟩ := h.navigated_primed hread
  have hcaptures := congrArg History.captures (h.primed_history hread)
  rw [forward_of_loaded ht (h.load_of_read hread).2, ← newlyCaptured_congr hcaptures]
  exact (hprimed.advance hc hend).navigated hprimed

theorem IsIdle.forward_answers (hc : 0 < c.maxMicroSteps) (ht : s.playback.Tidy) (h : IsIdle c s)
    (hread : Trace.read s.source = .ok t) {r : Option Snapshot} (hr : s.forward.2 = .ok r) :
    Answers s s.forward.1 r := by
  obtain ⟨hprimed, hend⟩ := h.navigated_primed hread
  have hnothing : s.primed.current? = none :=
    (congrArg History.current? (h.primed_history hread)).trans h.current
  rw [forward_of_loaded ht (h.load_of_read hread).2] at hr ⊢
  obtain ⟨-, rfl⟩ := exists_of_map_ok hr
  rcases (hprimed.advance hc hend).shows hc hprimed with hsame | ⟨shown, hcurrent, -, -⟩
  · have hstill : s.primed.programmed.current? = none :=
      (congrArg History.current? hsame).trans hnothing
    rw [hstill]
    exact .same (hstill.trans h.current.symm)
  · rw [hcurrent]
    exact .moved shown hcurrent (by rw [h.current]; nofun)

theorem newlyCaptured_back (s : Session) : newlyCaptured s s.back.1 = [] := by
  refine newlyCaptured_of_eq ?_
  rw [execution_back]

/-- The journal of a session that is driven by hand. -/
inductive Driven (c : Config) (t : Trace) (j : Journal) : Prop where
  /-- Its run is still to be started. -/
  | fresh (hidle : IsIdle c j.session) (hread : Trace.read j.session.source = .ok t)
      (hnothing : j.captured = [])
  | underWay (hnavigated : Navigated c t j.session j.captured)

theorem Driven.perform (hc : 0 < c.maxMicroSteps) {j : Journal} (ht : j.session.playback.Tidy)
    (h : Driven c t j) {op : Operation} (hop : op = .forward ∨ op = .back) :
    Driven c t (j.perform op) := by
  rcases hop with rfl | rfl
  · cases h with
    | fresh hidle hread hnothing =>
      refine .underWay ?_
      show Navigated c t j.session.forward.1 (j.captured ++ newlyCaptured j.session j.session.forward.1)
      rw [hnothing]
      exact hidle.navigated_forward hc ht hread
    | underWay hnavigated => exact .underWay (hnavigated.forward hc ht)
  · have hback : j.perform .back = ⟨j.session.back.1, j.captured⟩ := by
      show Journal.mk j.session.back.1 (j.captured ++ newlyCaptured j.session j.session.back.1) = _
      rw [newlyCaptured_back, List.append_nil]
    rw [hback]
    cases h with
    | fresh hidle hread hnothing =>
      rw [hidle.back]
      exact .fresh hidle hread hnothing
    | underWay hnavigated => exact .underWay hnavigated.back

/-- The induction is on the operations. -/
theorem Driven.run (hc : 0 < c.maxMicroSteps) {j : Journal} (hconf : Configured c bounds j.session)
    (h : Driven c t j) {ops : List Operation} (hops : ∀ op ∈ ops, op = .forward ∨ op = .back) :
    Driven c t (j.run ops) := by
  induction ops generalizing j with
  | nil => exact h
  | cons op later ih =>
    have hconf' : Configured c bounds (j.perform op).session := by
      rw [j.perform_session]
      exact hconf.perform op
    exact ih hconf' (h.perform hc hconf.tidy (hops op List.mem_cons_self))
      fun other hother => hops other (List.mem_cons_of_mem op hother)

/-! ## A completed run -/

/-- With nothing more to play a step from the last snapshot completes playback and changes nothing
else. -/
theorem programmed_of_done (hdone : s.execution.player.isDone = true)
    (hfinished : s.execution.counters.finish = s.execution.counters) :
    s.programmed.execution = s.execution ∧ s.programmed.playback.status.completed = true ∧
    s.programmed.playback.status.currentStep = s.playback.status.currentStep ∧
    s.programmed.playback.status.totalSteps = s.playback.status.totalSteps := by
  have hstep := Execution.step_of_isDone hdone
  rw [hfinished] at hstep
  have hexecution : s.programmed.execution = s.execution := by
    rw [execution_programmed, hstep]
    split <;> rfl
  refine ⟨hexecution, ?_⟩
  by_cases hcompleted : s.playback.status.completed = true
  · have hnothing : s.programmed = ⟨s.playback.ticketed⟩ :=
      congrArg (fun r => Session.mk r.1)
        (Playback.byHand_of_completed (p := s.playback.ticketed) hcompleted)
    rw [hnothing]
    exact ⟨hcompleted, rfl, rfl⟩
  · have hbyHand : s.playback.ticketed.byHand Execution.workload = _ := if_neg hcompleted
    have hwork := s.playback.ticketed.heldUp_frame.1
    have hheld : s.playback.ticketed.heldUp.status.currentStep = s.playback.status.currentStep
        ∧ s.playback.ticketed.heldUp.status.totalSteps = s.playback.status.totalSteps := by
      unfold Playback.heldUp
      split <;> exact ⟨rfl, rfl⟩
    generalize s.playback.ticketed.heldUp = p at hbyHand hwork hheld
    have houtcome : p.outcome Execution.workload = .finished := by
      show p.work.step.2.2 = _
      rw [hwork]
      exact congrArg (fun r => r.2.2) hstep
    have hcounted : (p.stepped Execution.workload).status = p.status := if_neg fun hmore => by
      exact nomatch houtcome.symm.trans hmore
    rw [houtcome] at hbyHand
    have hprogrammed : s.programmed = ⟨(p.stepped Execution.workload).complete⟩ :=
      congrArg (fun r => Session.mk r.1) hbyHand
    have hkept : ∀ q : Playback Execution, q.complete.status.currentStep = q.status.currentStep
        ∧ q.complete.status.totalSteps = q.status.totalSteps := by
      intro q
      unfold Playback.complete
      split <;> exact ⟨rfl, rfl⟩
    rw [hprogrammed]
    refine ⟨Playback.completed_complete _, (hkept _).1.trans ?_, (hkept _).2.trans ?_⟩
    · rw [hcounted, hheld.1]
    · rw [hcounted, hheld.2]

/-- The second session is the first one, gone back and forth in what it had played to the end. -/
structure Revisits (c : Config) (bounds : DelayBounds) (t : Trace) (captured : List Snapshot)
    (u v : Session) : Prop where
  configured : Configured c bounds v
  navigated : Navigated c t v captured
  execution : v.execution = { u.execution with
    history := { u.execution.history with cursor := v.execution.history.cursor } }
  currentStep : v.playback.status.currentStep = u.playback.status.currentStep
  totalSteps : v.playback.status.totalSteps = u.playback.status.totalSteps

theorem Revisits.back (h : Revisits c bounds t captured u v) :
    Revisits c bounds t captured u v.back.1 := by
  have hstatus : v.back.1.playback.status.currentStep = v.playback.status.currentStep
      ∧ v.back.1.playback.status.totalSteps = v.playback.status.totalSteps := by
    have hresumed : ∀ p : Playback Execution,
        p.resumeFromCompleted.1.status.currentStep = p.status.currentStep
          ∧ p.resumeFromCompleted.1.status.totalSteps = p.status.totalSteps := by
      intro p
      unfold Playback.resumeFromCompleted
      split <;> exact ⟨rfl, rfl⟩
    unfold Session.back
    split
    · exact ⟨rfl, rfl⟩
    · exact hresumed _
  refine ⟨h.configured.perform .back, h.navigated.back, ?_, hstatus.1.trans h.currentStep,
    hstatus.2.trans h.totalSteps⟩
  rw [execution_back, h.execution]

/-- Going forward replays what was played, and completes playback after the last snapshot. -/
theorem Revisits.forward (hc : 0 < c.maxMicroSteps) (hdone : u.execution.player.isDone = true)
    (hfinished : u.execution.counters.finish = u.execution.counters)
    (h : Revisits c bounds t captured u v) :
    Revisits c bounds t captured u v.forward.1 ∧ (v.execution.history.canStepForward = false →
      v.forward.1.execution = v.execution ∧ v.forward.1.playback.status.completed = true) := by
  have hnavigated := h.navigated.forward hc h.configured.tidy
  have hconf : Configured c bounds v.forward.1 := h.configured.perform .forward
  have hstarted := h.navigated.playing.started
  cases hcan : v.execution.history.canStepForward with
  | true =>
    have hmoved := execution_forward_of_replay hstarted hcan
    have hsame : v.forward.1.execution.history.captures = v.execution.history.captures := by
      rw [hmoved]
    rw [newlyCaptured_of_eq hsame, List.append_nil] at hnavigated
    refine ⟨⟨hconf, hnavigated, ?_, ?_, ?_⟩, nofun⟩
    · rw [hmoved, h.execution]
    · rw [forward_of_ahead hstarted hcan]
      exact h.currentStep
    · rw [forward_of_ahead hstarted hcan]
      exact h.totalSteps
  | false =>
    -- the program has nothing left to play, so the step only completes playback
    have hdone' : v.execution.player.isDone = true := by
      rw [h.execution]
      exact hdone
    have hfinished' : v.execution.counters.finish = v.execution.counters := by
      rw [h.execution]
      exact hfinished
    obtain ⟨hexecution, hcompleted, hcurrent, htotal⟩ := programmed_of_done hdone' hfinished'
    have hforward : v.forward.1 = v.programmed :=
      congrArg Prod.fst (forward_of_last h.configured.tidy hstarted hcan)
    rw [hforward] at hconf hnavigated ⊢
    have hsame := congrArg (fun x : Execution => x.history.captures) hexecution
    rw [newlyCaptured_of_eq hsame, List.append_nil] at hnavigated
    refine ⟨⟨hconf, hnavigated, ?_, hcurrent.trans h.currentStep, htotal.trans h.totalSteps⟩,
      fun _ => ⟨hexecution, hcompleted⟩⟩
    rw [hexecution]
    exact h.execution

theorem Revisits.run (hc : 0 < c.maxMicroSteps) (hdone : u.execution.player.isDone = true)
    (hfinished : u.execution.counters.finish = u.execution.counters)
    (h : Revisits c bounds t captured u v) {ops : List Operation}
    (hops : ∀ op ∈ ops, op = .forward ∨ op = .back) : Revisits c bounds t captured u (v.run ops) := by
  induction ops generalizing v with
  | nil => exact h
  | cons op later ih =>
    have hnext : Revisits c bounds t captured u (v.perform op) := by
      rcases hops op List.mem_cons_self with rfl | rfl
      · exact (h.forward hc hdone hfinished).1
      · exact h.back
    exact ih hnext fun other hother => hops other (List.mem_cons_of_mem op hother)

/-- The number of snapshots ahead of the cursor. -/
def ahead (s : Session) : Nat :=
  s.execution.history.size - s.execution.history.cursor.elim 0 (· + 1)

/-- On the way to the last snapshot and once beyond. The induction is on what lies ahead. -/
theorem Revisits.completes (hc : 0 < c.maxMicroSteps) (hdone : u.execution.player.isDone = true)
    (hfinished : u.execution.counters.finish = u.execution.counters) :
    ∀ (n : Nat) {v : Session}, Revisits c bounds t captured u v → v.ahead = n →
      let z := v.run (List.replicate (n + 1) .forward)
      Revisits c bounds t captured u z ∧ z.playback.status.completed = true
  | 0, v, h, hahead => by
    have hend : v.execution.history.canStepForward = false := by
      refine Bool.eq_false_iff.mpr fun hcan => ?_
      obtain ⟨i, hcursor, hlt⟩ := History.canStepForward_iff.mp hcan
      unfold ahead at hahead
      rw [hcursor] at hahead
      simp only [Option.elim_some] at hahead
      omega
    obtain ⟨hforward, hcompletes⟩ := h.forward hc hdone hfinished
    exact ⟨hforward, (hcompletes hend).2⟩
  | n + 1, v, h, hahead => by
    have hahead' : v.forward.1.ahead = n := by
      have hvalid := h.navigated.playing.history
      unfold ahead at hahead
      cases hcursor : v.execution.history.cursor with
      | none =>
        have hempty := hvalid.empty_of_cursor hcursor
        omega
      | some i =>
        rw [hcursor] at hahead
        simp only [Option.elim_some] at hahead
        have hlt : i + 1 < v.execution.history.size := by omega
        have hshown : v.execution.history.retained[i + 1]?
            = some v.execution.history.retained[i + 1] := Array.getElem?_eq_getElem hlt
        rw [forward_of_shown h.navigated.playing.started hcursor hshown]
        show v.execution.history.size - (i + 1 + 1) = n
        omega
    exact Revisits.completes hc hdone hfinished n (h.forward hc hdone hfinished).1 hahead'

theorem forward_of_completed (ht : s.playback.Tidy) (hstarted : s.execution.started = true)
    (hend : s.execution.history.canStepForward = false) (hcompleted : s.playback.status.completed = true) :
    s.forward = (⟨s.playback.ticketed⟩, .ok none) := by
  have hdone : s.playback.ticketed.byHand Execution.workload = (s.playback.ticketed, .ok false) :=
    Playback.byHand_of_completed hcompleted
  rw [forward_of_last ht hstarted hend]
  unfold programmed answer
  rw [hdone]
  exact Prod.ext rfl (congrArg Except.ok (if_pos rfl))

/-- A completed run that the user went back from is completed again at its end, and is then what it
was. -/
theorem Navigated.completes_again (hc : 0 < c.maxMicroSteps) (hconf : Configured c bounds s)
    (h : Navigated c t s captured) (hcompleted : s.playback.status.completed = true)
    {later : List Operation} (hlater : ∀ op ∈ later, op = .forward ∨ op = .back) :
    let v := s.back.1.run later
    let z := v.run (List.replicate (v.ahead + 1) .forward)
    z.playback.status.completed = true ∧ z.execution = s.execution ∧
      z.playback.status.currentStep = s.playback.status.currentStep ∧
      z.playback.status.totalSteps = s.playback.status.totalSteps := by
  intro v z
  obtain ⟨hend, hfinished⟩ := h.settled hcompleted
  have hdone := h.done_of_completed hcompleted
  have hself : Revisits c bounds t captured s s := ⟨hconf, h, rfl, rfl, rfl⟩
  have hthere : Revisits c bounds t captured s v := hself.back.run hc hdone hfinished hlater
  obtain ⟨hz, hcompletes⟩ := hthere.completes hc hdone hfinished v.ahead rfl
  -- both cursors are on the last snapshot
  have hcursor : z.execution.history.cursor = s.execution.history.cursor := by
    have hlast := hz.navigated.playing.history.cursor_of_end (hz.navigated.settled hcompletes).1
    have hsize : z.execution.history.size = s.execution.history.size := by
      rw [hz.execution]
      rfl
    rw [hlast, hsize, ← h.playing.history.cursor_of_end hend]
  refine ⟨hcompletes, ?_, hz.currentStep, hz.totalSteps⟩
  rw [hz.execution, hcursor]

/-- Take any session with a valid configuration, after any operations that leave no run started, with a
source that reads as a trace, and drive it by going forward and back alone. Then:

* the history retains the latest snapshots captured, in their order, as many as there is room for;
* going forward before the last of them shows the next one, and nothing changes but the cursor and what
  observers are told;
* going forward from the last one takes a single step, after loading the run if need be, or does nothing if
  the run is completed;
* going forward, if it does not fail, is answered with the snapshot now under the cursor if that is
  another one than before, and with nothing otherwise;
* going back and then forward shows the snapshot that was left;
* going back from a completed run takes the completion back, and wherever the user goes from there, going
  forward to the last snapshot and once more completes the run again, with the execution and the counters
  of playback as they were. -/
theorem navigation_loses_nothing {c : Config} {t : Trace} {s : Session} (hnew : new? c = .ok s)
    (before : List Operation) (hstarted : (s.run before).execution.started = false)
    (hread : Trace.read (s.run before).source = .ok t) {ops : List Operation}
    (hops : ∀ op ∈ ops, op = .forward ∨ op = .back) :
    let j := (Journal.opened (s.run before)).run ops
    let u := j.session
    let x := u.execution
    x.history.retained.toList = j.captured.rtake c.history.maxHistory ∧
    (∀ (i : Nat) (shown : Snapshot), x.history.cursor = some i →
      x.history.retained[i + 1]? = some shown →
      u.forward = ((u.withExecution { x with
          history := { x.history with cursor := some (i + 1) } }).notify [.snapshot shown],
        .ok (some shown))) ∧
    (x.history.canStepForward = false → if u.playback.status.completed
      then u.forward = (⟨u.playback.ticketed⟩, .ok none)
      else u.forward.1.execution = if x.started then x.step.1 else x.start.1.step.1) ∧
    (∀ r, u.forward.2 = .ok r → Answers u u.forward.1 r) ∧
    (u.back.2.isSome = true →
      ∃ shown, u.current? = some shown ∧ u.back.1.forward.2 = .ok (some shown)) ∧
    (u.playback.status.completed = true → u.back.2.isSome = true →
      u.back.1.playback.status.completed = false ∧
      ∀ later : List Operation, (∀ op ∈ later, op = .forward ∨ op = .back) →
        let v := u.back.1.run later
        let z := v.run (List.replicate (v.ahead + 1) .forward)
        z.playback.status.completed = true ∧ z.execution = x ∧
        z.playback.status.currentStep = u.playback.status.currentStep ∧
        z.playback.status.totalSteps = u.playback.status.totalSteps) := by
  intro j u x
  obtain ⟨-, hc⟩ := isIdle_of_new? hnew
  have hidle := isIdle_of_not_started hnew hstarted
  obtain ⟨bounds, hs⟩ := eq_of_new? hnew
  have hconf₀ : Configured c bounds (s.run before) := by
    rw [hs]
    exact (configured_new c bounds).run before
  have hconf : Configured c bounds u := by
    show Configured c bounds ((Journal.opened (s.run before)).run ops).session
    rw [Journal.run_session]
    exact hconf₀.run ops
  have hdriven : Driven c t j :=
    Driven.run hc (j := Journal.opened (s.run before)) hconf₀ (.fresh hidle hread rfl) hops
  have hcapacity : x.history.capacity = c.history.maxHistory :=
    hconf.execution.capacity_eq (maxHistory_pos (violation_of_new? hnew))
  cases hdriven with
  | fresh hidle hread hnothing =>
    have hcursor : x.history.cursor = none := hidle.idle.cursor
    have hopen : u.playback.status.completed = false := hidle.not_completed
    have hback : u.back.2.isSome ≠ true := by
      rcases u.back_cases with hsame | ⟨i, _, hat, -, -, -⟩
      · rw [hsame]
        exact Bool.false_ne_true
      · exact nomatch hcursor.symm.trans hat
    refine ⟨?_, fun i shown hat => ?_, fun _ => ?_, fun r hr => ?_, fun hsome => absurd hsome hback,
      fun _ hsome => absurd hsome hback⟩
    · rw [hidle.retained, hnothing, List.rtake_nil]
    · exact nomatch hcursor.symm.trans hat
    · have hunstarted : x.started = false := hidle.idle.started
      have hprimed : u.primed.playback.status.completed = false := hopen
      rw [hopen, hunstarted, if_neg Bool.false_ne_true, if_neg Bool.false_ne_true,
        forward_of_loaded hconf.tidy (hidle.load_of_read hread).2, execution_programmed, hprimed]
      rfl
    · exact hidle.forward_answers hc hconf.tidy hread hr
  | underWay h =>
    have hgoing : x.started = true := h.playing.started
    refine ⟨?_, fun i shown => forward_of_shown hgoing, fun hend => ?_, fun r hr => ?_,
      forward_of_back hgoing h.playing.history, fun hcompleted hsome => ⟨?_, fun later hlater => ?_⟩⟩
    · rw [← hcapacity]
      exact h.retained
    · cases hcompleted : u.playback.status.completed with
      | true => exact forward_of_completed hconf.tidy hgoing hend hcompleted
      | false =>
        rw [hgoing, forward_of_last hconf.tidy hgoing hend, execution_programmed, hcompleted]
        rfl
    · exact h.forward_answers hc hconf.tidy hr
    · rcases u.back_cases with hsame | ⟨i, shown, -, -, -, hopen⟩
      · rw [hsame] at hsome
        cases hsome
      · exact hopen
    · exact h.completes_again hc hconf hcompleted hlater

/-- Three lines, driven by hand to the end: whoever goes back from there can go forward again, and then
the run is completed once more with both its snapshots retained. -/
theorem navigation_of_threeLines :
    let s := Session.standard.run [.setSource Trace.threeLinesText]
    let j := (Journal.opened s).run [.forward, .forward, .forward]
    let u := j.session
    let z := u.back.1.run [.forward, .forward]
    new? .standard = .ok .standard ∧ s.execution.started = false ∧ Trace.read s.source = .ok .threeLines
    ∧ u.playback.status.completed = true ∧ u.execution.history.retained.toList = j.captured
    ∧ u.back.1.playback.status.completed = false ∧ z.playback.status.completed = true
    ∧ z.execution.history.retained = u.execution.history.retained := by
  intro s j u z
  have hnew : new? .standard = .ok .standard := by rfl
  have hstarted : s.execution.started = false := by rfl
  have hread : Trace.read s.source = .ok .threeLines := by
    have hsource : s.source = Trace.threeLinesText := by rfl
    rw [hsource]
    exact Trace.read_threeLinesText
  have hops : ∀ op ∈ [Operation.forward, .forward, .forward], op = .forward ∨ op = .back := by simp
  have hcompleted : u.playback.status.completed = true := by decide +kernel
  have hback : u.back.2.isSome = true := by decide +kernel
  have hahead : u.back.1.ahead = 1 := by decide +kernel
  have hfew : j.captured.length = 2 := by decide +kernel
  obtain ⟨hretained, -, -, -, -, hagain⟩ :=
    navigation_loses_nothing hnew [.setSource Trace.threeLinesText] hstarted hread hops
  obtain ⟨hopen, hlater⟩ := hagain hcompleted hback
  obtain ⟨hcompleted', hsame, -, -⟩ := hlater [] (by simp)
  have hz : (u.back.1.run []).run (List.replicate ((u.back.1.run []).ahead + 1) .forward) = z := by
    show u.back.1.run (List.replicate (u.back.1.ahead + 1) .forward) = z
    rw [hahead]
    rfl
  rw [hz] at hcompleted' hsame
  refine ⟨hnew, hstarted, hread, hcompleted, ?_, hopen, hcompleted', ?_⟩
  · have hall : j.captured.rtake Config.standard.history.maxHistory = j.captured := by
      unfold List.rtake
      rw [hfew]
      rfl
    exact hretained.trans hall
  · exact congrArg (fun x : Execution => x.history.retained) hsame

end Session

end Retrace
