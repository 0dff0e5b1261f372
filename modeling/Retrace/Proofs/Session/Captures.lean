import Retrace.Proofs.Session.Operation
/-!
# A session captures the stops of its trace, once each and in their order

Whoever takes the steps of a session — its loops, in any order and with any pauses between them, or its
user by hand, or all of them in turns — the snapshots captured from the start of a run to the next reset
are copies of the trace's stops up to the first failing small step, as far as the run has come
(`captures_follow_stops`). How the steps were taken shows nowhere in them.

A session does not keep what it captured: its history drops redo branches and evicts. So the captures
are collected beside it, in a `Journal`, one operation after the other.
-/

namespace Retrace

open Session (Operation newlyCaptured IsIdle IsPlaying)

/-- A session, and what was captured in it since the last reset. -/
structure Journal where
  session : Session
  captured : List Snapshot

namespace Journal

/-- A journal of a session in which nothing was captured. -/
def opened (s : Session) : Journal := ⟨s, []⟩

/-- The journal after an operation. -/
def perform (j : Journal) (op : Operation) : Journal :=
  match op with
  | .reset => opened (j.session.perform .reset)
  | op => ⟨j.session.perform op, j.captured ++ newlyCaptured j.session (j.session.perform op)⟩

/-- The journal after several operations. -/
def run (j : Journal) (ops : List Operation) : Journal := ops.foldl perform j

theorem perform_of_ne_reset (j : Journal) {op : Operation} (hop : op ≠ .reset) :
    j.perform op
      = ⟨j.session.perform op, j.captured ++ newlyCaptured j.session (j.session.perform op)⟩ := by
  cases op with
  | reset => exact absurd rfl hop
  | _ => rfl

theorem perform_session (j : Journal) (op : Operation) :
    (j.perform op).session = j.session.perform op := by
  cases op <;> rfl

theorem run_session (j : Journal) (ops : List Operation) :
    (j.run ops).session = j.session.run ops := by
  induction ops generalizing j with
  | nil => rfl
  | cons op ops ih =>
    show ((j.perform op).run ops).session = (j.session.perform op).run ops
    rw [ih, perform_session]

end Journal

namespace Session

/-- Every session is idle or plays a trace. -/
theorem idle_or_playing {c : Config} (hc : 0 < c.maxMicroSteps) {s : Session}
    (h : IsIdle c s ∨ ∃ t captured, IsPlaying c t s captured) (ops : List Operation) :
    IsIdle c (s.run ops) ∨ ∃ t captured, IsPlaying c t (s.run ops) captured := by
  induction ops generalizing s with
  | nil => exact h
  | cons op ops ih =>
    refine ih ?_
    rcases h with hidle | ⟨t, captured, hplaying⟩
    · -- a run is started by three operations, and only if there is a trace to play
      cases hread : Trace.read s.source with
      | error e => exact Or.inl (hidle.perform fun _ => ⟨e, hread⟩)
      | ok t =>
        cases hop : op.starts with
        | true => exact Or.inr ⟨t, _, hidle.perform_of_read hc hread hop⟩
        | false =>
          refine Or.inl (hidle.perform ?_)
          intro hstarts
          rw [hop] at hstarts
          cases hstarts
    · by_cases hop : op = .reset
      · rw [hop]
        exact Or.inl hplaying.reset
      · exact Or.inr ⟨t, _, hplaying.perform hc hop⟩

/-- Between any two operations the gate is free, so nobody ever waits at it, and an operation that takes a
step is done in one go. -/
theorem gate_run {c : Config} {s : Session} (hnew : new? c = .ok s) (ops : List Operation) :
    (s.run ops).playback.gate = .free := by
  obtain ⟨hidle, hc⟩ := isIdle_of_new? hnew
  rcases idle_or_playing hc (Or.inl hidle) ops with h | ⟨t, captured, h⟩
  · exact h.free
  · exact h.free

theorem isIdle_of_not_started {c : Config} {s : Session} (hnew : new? c = .ok s)
    {ops : List Operation} (hstarted : (s.run ops).execution.started = false) :
    IsIdle c (s.run ops) := by
  obtain ⟨hidle, hc⟩ := isIdle_of_new? hnew
  rcases idle_or_playing hc (Or.inl hidle) ops with h | ⟨t, captured, h⟩
  · exact h
  · rw [h.playing.started] at hstarted
    cases hstarted

/-- The journal of a session that plays keeps up with it until the next reset. -/
theorem IsPlaying.journal_run {c : Config} {t : Trace} {j : Journal} (hc : 0 < c.maxMicroSteps)
    (h : IsPlaying c t j.session j.captured) {ops : List Operation} (hops : .reset ∉ ops) :
    IsPlaying c t (j.run ops).session (j.run ops).captured := by
  induction ops generalizing j with
  | nil => exact h
  | cons op ops ih =>
    rw [List.mem_cons, not_or] at hops
    have hop : op ≠ .reset := fun he => hops.1 he.symm
    refine ih ?_ hops.2
    rw [j.perform_of_ne_reset hop]
    exact h.perform hc hop

/-- Waiting does not keep a session from going on with its trace. -/
theorem IsPlaying.await {c : Config} {t : Trace} {s : Session} {captured : List Snapshot}
    (hc : 0 < c.maxMicroSteps) (h : IsPlaying c t s captured) (limitMs : Option Nat) :
    ∃ captured', IsPlaying c t (s.await limitMs).1 captured' := by
  obtain ⟨ops, hown, hrun⟩ := exists_run_await s limitMs
  have hops : .reset ∉ ops := by
    intro hmem
    have := hown .reset hmem
    cases this
  have hplaying : IsPlaying c t (Journal.mk s captured).session captured := h
  have hran := hplaying.journal_run hc hops
  rw [Journal.run_session] at hran
  rw [hrun]
  exact ⟨_, hran⟩

/-- A run may be started in an idle session whose source reads as a trace. -/
theorem IsIdle.journal_perform {c : Config} {t : Trace} {s : Session} (hc : 0 < c.maxMicroSteps)
    (h : IsIdle c s) (hread : Trace.read s.source = .ok t) {op : Operation}
    (hop : op.starts = true) :
    IsPlaying c t ((Journal.opened s).perform op).session
      ((Journal.opened s).perform op).captured := by
  have hne : op ≠ .reset := by
    intro he
    rw [he] at hop
    cases hop
  rw [Journal.perform_of_ne_reset _ hne]
  exact h.perform_of_read hc hread hop

end Session

/-- The captured snapshots have the numbers of the stops that were reached. -/
theorem Execution.Playing.stepNumbers_isPrefix {c : Config} {t : Trace} {x : Execution}
    {captured : List Snapshot} (hc : 0 < c.maxMicroSteps) (h : Execution.Playing c t x captured) :
    captured.map (·.position.stepNumber) <+: t.reachedStops c.player c.maxMicroSteps := by
  obtain ⟨reached, hprogress, hcopies⟩ := h.progress
  obtain ⟨-, hentries⟩ := Trace.reachedStops_increasing (t := t) hc c.player
  have hbare : captured.map (·.position.stepNumber)
      = (captured.map Snapshot.bare).map (·.position.stepNumber) := by
    rw [List.map_map]
    rfl
  rw [hbare, hcopies, Trace.stepNumber_copies fun q hq => hentries q (hprogress.isPrefix.subset hq)]
  exact hprogress.isPrefix

/-- They show entries further and further on. -/
theorem Execution.Playing.increasing {c : Config} {t : Trace} {x : Execution}
    {captured : List Snapshot} (hc : 0 < c.maxMicroSteps) (h : Execution.Playing c t x captured) :
    (captured.map (·.position.stepNumber)).Pairwise (· < ·) :=
  (Trace.reachedStops_increasing hc c.player).1.sublist (h.stepNumbers_isPrefix hc).sublist

/-- Take any session with a valid configuration, after any operations that leave no run started, with
a source that reads as a trace. Start a run in any of the three ways and go on with any operations but
a reset. Then what was captured are copies of the stops that the trace reaches, in their order and each
at most once, from the first one on without a gap; and it is all of them if the session is complete.
The captures are as many as the session counts. -/
theorem captures_follow_stops {c : Config} {t : Trace} {s : Session} (hnew : Session.new? c = .ok s)
    (before : List Operation) (hstarted : (s.run before).execution.started = false)
    (hread : Trace.read (s.run before).source = .ok t) :
    let stops := t.reachedStops c.player c.maxMicroSteps
    stops.Pairwise (· < ·) ∧ (∀ q ∈ stops, q < t.entries.size) ∧
    ∀ (op : Operation) (after : List Operation), op.starts = true → .reset ∉ after →
      let j := (Journal.opened (s.run before)).run (op :: after)
      j.session = s.run (before ++ op :: after)
      ∧ j.captured.map Snapshot.bare <+: t.copies stops
      ∧ j.captured.map (·.position.stepNumber) <+: stops
      ∧ j.captured.length = j.session.execution.history.captures
      ∧ (j.session.playback.status.completed = true ∨ j.session.execution.player.isDone = true →
          j.captured.map Snapshot.bare = t.copies stops) := by
  intro stops
  obtain ⟨-, hc⟩ := Session.isIdle_of_new? hnew
  have hidle := Session.isIdle_of_not_started hnew hstarted
  obtain ⟨hincreasing, hentries⟩ := Trace.reachedStops_increasing (t := t) hc c.player
  refine ⟨hincreasing, hentries, ?_⟩
  intro op after hop hafter j
  -- the invariant from the start of the run on
  have hplaying : IsPlaying c t j.session j.captured :=
    (hidle.journal_perform hc hread hop).journal_run hc hafter
  obtain ⟨reached, hprogress, hcopies⟩ := hplaying.playing.progress
  -- `reached` are the stops captured so far
  have hbeginning : reached <+: stops := hprogress.isPrefix
  refine ⟨?_, ?_, hplaying.playing.stepNumbers_isPrefix hc, hplaying.playing.captures.symm, ?_⟩
  · rw [Journal.run_session]
    unfold Session.run
    rw [List.foldl_append]
    rfl
  · rw [hcopies]
    exact hbeginning.filterMap _
  · intro hover
    have hdone : j.session.execution.player.isDone = true := by
      rcases hover with hcompleted | hdone
      · exact hplaying.done_of_completed hcompleted
      · exact hdone
    rw [hcopies, hprogress.eq_of_isDone hdone]

/-- A session with the standard configuration. -/
def Session.standard : Session := ⟨.new .standard ⟨10, 2000, by decide⟩ (.new .standard)⟩

/-- A trace of three lines. -/
def Trace.threeLines : Trace := ⟨#[.ofLine 1, .ofLine 2, .ofLine 2, .ofLine 3]⟩

/-- A document of it. -/
def Trace.threeLinesText : String := "[[[1],[2],[2],[3]]]"

theorem Trace.read_threeLinesText : Trace.read Trace.threeLinesText = .ok .threeLines :=
  read_of_decode rfl rfl rfl

/-- The loop takes a first step, its user a second one, goes back and forth, and finds the end. -/
theorem captures_of_threeLines :
    let s := Session.standard.run [.setSource Trace.threeLinesText]
    let j := (Journal.opened s).run [.start, .move (.begin 1), .forward, .back, .forward, .forward]
    Session.new? .standard = .ok .standard ∧ s.execution.started = false
    ∧ Trace.read s.source = .ok .threeLines ∧ j.session.playback.status.completed = true
    ∧ j.captured.map Snapshot.bare = Trace.threeLines.copies [1, 3] := by
  intro s j
  have hnew : Session.new? .standard = .ok .standard := by rfl
  have hstarted : s.execution.started = false := by rfl
  have hread : Trace.read s.source = .ok .threeLines := by
    have hsource : s.source = Trace.threeLinesText := by rfl
    rw [hsource]
    exact Trace.read_threeLinesText
  have hstops : Trace.threeLines.reachedStops Config.standard.player Config.standard.maxMicroSteps
      = [1, 3] := by decide +kernel
  have hcompleted : j.session.playback.status.completed = true := by decide +kernel
  obtain ⟨-, -, hruns⟩ := captures_follow_stops hnew _ hstarted hread
  obtain ⟨-, -, -, -, hall⟩ :=
    hruns .start [.move (.begin 1), .forward, .back, .forward, .forward] rfl (by simp)
  rw [hstops] at hall
  exact ⟨hnew, hstarted, hread, hcompleted, hall (Or.inl hcompleted)⟩

end Retrace
