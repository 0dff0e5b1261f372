import Retrace.Proofs.History.UndoLog
import Retrace.Proofs.Session.Advance
import Retrace.Proofs.Session.LimitWarning
/-!
# What a session retains of its captures, and what it evicted

A session captures snapshots in the order of their steps, and its history drops and evicts some of them. What
was evicted and what is still retained are captures in the order in which they were made (`Archived`): a
capture adds one at the end, and takes away what lay ahead of the cursor. So the retained snapshots have
increasing step numbers, and all that was evicted has lower ones. And the player is at the last capture or
beyond it.

The evicted snapshots are collected beside the session in an `Archive`, with what observers were told. They
were told of the limit of the history once if something was evicted, and otherwise not
(`retained_in_order`).
-/

namespace Retrace

open Session (Operation newlyCaptured)

namespace History

variable {h h' : History} {captured evicted new : List Snapshot} {stepCount stepCount' : Nat}

/-- From one history to a later one only the cursor was moved, or one snapshot was captured. -/
inductive Continues (h : History) : History → List Snapshot → Prop where
  | moved (cursor : Option Nat) : Continues h { h with cursor := cursor } []
  | captured (s : Snapshot) :
      Continues h ({ h with captures := h.captures + 1 }.append s).1 [s]

/-- What was evicted from a history and what it retains are captures in their order, the last of them
included. An eviction is remembered, and a player has come to all the captures. -/
structure Archived (h : History) (stepCount : Nat) (captured evicted : List Snapshot) : Prop where
  sublist : (evicted ++ h.retained.toList).Sublist captured
  last : h.retained.toList.getLast? = captured.getLast?
  limitShown : h.limitShown = true ↔ evicted ≠ []
  reached : ∀ s ∈ captured, s.position.stepNumber ≤ stepCount

theorem archived_of_nothing (hretained : h.retained = #[]) (hshown : h.limitShown = false) :
    h.Archived stepCount [] [] := by
  refine ⟨?_, ?_, ?_, nofun⟩
  · rw [hretained]
    exact List.Sublist.refl []
  · rw [hretained]
  · rw [hshown]
    exact ⟨nofun, fun hsome => absurd rfl hsome⟩

/-- Going on from a history keeps the order: what is taken away at the front was evicted, and what is taken
away at the end is gone. -/
theorem Archived.continues (ha : h.Archived stepCount captured evicted) (hv : h.Valid)
    (hon : h.Continues h' new) (hnew : ∀ s ∈ new, s.position.stepNumber ≤ stepCount')
    (hreached : ∀ s ∈ captured, s.position.stepNumber ≤ stepCount') :
    h'.Archived stepCount' (captured ++ new) (evicted ++ new.flatMap h.evictedBy) := by
  have hboth : ∀ s ∈ captured ++ new, s.position.stepNumber ≤ stepCount' := by
    intro s hs
    rcases List.mem_append.mp hs with hs | hs
    · exact hreached s hs
    · exact hnew s hs
  cases hon with
  | moved cursor =>
    rw [List.append_nil] at hboth ⊢
    rw [List.flatMap_nil, List.append_nil]
    exact ⟨ha.sublist, ha.last, ha.limitShown, hboth⟩
  | captured s =>
    have hcounted := hv.withCaptures (h.captures + 1)
    have hbehind : (h.behind).Sublist h.retained.toList := List.take_sublist _ _
    have hretained : ({ h with captures := h.captures + 1 }.append s).1.retained.toList
        = h.kept ++ [s] := hcounted.append_retained s
    rw [List.flatMap_singleton]
    refine ⟨?_, ?_, ?_, hboth⟩
    · -- what was evicted just now and what is kept lay up to the cursor
      have hparts : evicted ++ h.evictedBy s ++ (h.kept ++ [s]) = evicted ++ h.behind ++ [s] := by
        rw [← hv.evictedBy_append_kept s]
        simp only [List.append_assoc]
      rw [hretained, hparts]
      exact ((hbehind.append_left evicted).trans ha.sublist).append_right [s]
    · rw [hretained, List.getLast?_concat, List.getLast?_concat]
    · have hfull : { h with captures := h.captures + 1 }.overflows = h.overflows := rfl
      rw [hcounted.append_limitShown, hfull, Bool.or_eq_true, ← hv.evictedBy_ne_nil_iff s,
        ha.limitShown, ne_eq (evicted ++ _), List.append_eq_nil_iff, not_and_or]

end History

namespace Execution

variable {x x' : Execution}

/-- A step moves nothing but the end of the history, and what it captures has the number that the player has
come to. -/
theorem continues_step (x : Execution) : ∃ new, x.history.Continues x.step.1.history new
    ∧ ∀ s ∈ new, s.position.stepNumber = x.step.1.player.stepCount := by
  rcases x.history_step with hsame | ⟨shown, happended, hnumber⟩
  · refine ⟨[], ?_, nofun⟩
    rw [hsame]
    exact .moved x.history.cursor
  · refine ⟨[shown], ?_, fun s hs => List.mem_singleton.mp hs ▸ hnumber⟩
    rw [happended]
    exact .captured shown

theorem Affected.continues (h : Affected x x') : ∃ new, x.history.Continues x'.history new
    ∧ ∀ s ∈ new, s.position.stepNumber = x'.player.stepCount := by
  have hloaded : x.start.1.history = x.history := x.start_frame.1
  cases h with
  | moved source cursor => exact ⟨[], .moved cursor, nofun⟩
  | loaded =>
    refine ⟨[], ?_, nofun⟩
    rw [hloaded]
    exact .moved x.history.cursor
  | stepped => exact x.continues_step
  | begun =>
    rw [← hloaded]
    exact x.start.1.continues_step

/-- Once a run was started the player goes onward only. -/
theorem Affected.onward (h : Affected x x') (hstarted : x.started = true) :
    x.player.Onward x'.player := by
  rcases h.of_started hstarted with ⟨source, cursor, rfl⟩ | rfl
  · exact .refl _
  · exact x.onward_step

end Execution

namespace Session

/-- What was newly captured is told by the history. -/
theorem newlyCaptured_of_continues {s s' : Session} {new : List Snapshot}
    (hv : s.execution.history.Valid)
    (hon : s.execution.history.Continues s'.execution.history new) : newlyCaptured s s' = new := by
  unfold newlyCaptured current?
  generalize s'.execution.history = h' at hon ⊢
  cases hon with
  | moved cursor => rw [if_neg (Nat.lt_irrefl _)]
  | captured shown =>
    rw [History.append_captures, if_pos (Nat.lt_succ_self _), (hv.withCaptures _).append_current]
    rfl

/-- The snapshots that an operation evicts with what it captures. -/
def newlyEvicted (s s' : Session) : List Snapshot :=
  (newlyCaptured s s').flatMap s.execution.history.evictedBy

end Session

/-- A transcript of a session with the snapshots evicted since the last reset, oldest first. -/
structure Archive where
  transcript : Transcript
  evicted : List Snapshot

namespace Archive

def session (a : Archive) : Session := a.transcript.session

def captured (a : Archive) : List Snapshot := a.transcript.captured

/-- What observers were told since the last reset. -/
def told (a : Archive) : List Event := a.transcript.told

/-- The archive of a session in which nothing has happened. -/
def opened (s : Session) : Archive := ⟨.opened s, []⟩

/-- The archive after an operation. -/
def perform (a : Archive) (op : Operation) : Archive where
  transcript := a.transcript.perform op
  evicted :=
    match op with
    | .reset => []
    | op => a.evicted ++ Session.newlyEvicted a.session (a.session.perform op)

/-- The archive after several operations. -/
def run (a : Archive) (ops : List Operation) : Archive := ops.foldl perform a

theorem run_transcript (a : Archive) (ops : List Operation) :
    (a.run ops).transcript = a.transcript.run ops := by
  induction ops generalizing a with
  | nil => rfl
  | cons op ops ih => exact ih (a.perform op)

theorem run_session (a : Archive) (ops : List Operation) :
    (a.run ops).session = a.session.run ops := by
  have hledger : (a.run ops).session = ((a.run ops).transcript.ledger).session := rfl
  rw [hledger, run_transcript, Transcript.run_ledger, Ledger.run_session]
  rfl

theorem perform_of_ne_reset (a : Archive) {op : Operation} (hop : op ≠ .reset) :
    (a.perform op).session = a.session.perform op
    ∧ (a.perform op).captured = a.captured ++ newlyCaptured a.session (a.session.perform op)
    ∧ (a.perform op).told = a.told ++ a.session.told op
    ∧ (a.perform op).evicted
        = a.evicted ++ Session.newlyEvicted a.session (a.session.perform op) := by
  have htranscript := a.transcript.perform_of_ne_reset hop
  obtain ⟨hsession, hcaptured, -⟩ := a.transcript.ledger.perform_of_ne_reset hop
  refine ⟨?_, ?_, congrArg Transcript.told htranscript, ?_⟩
  · exact (congrArg Transcript.session htranscript).trans hsession
  · exact (congrArg Transcript.captured htranscript).trans hcaptured
  · cases op with
    | reset => exact absurd rfl hop
    | _ => rfl

/-- An archive of a session that keeps its captures in order, and in which observers were told of the limit as
the history remembers. -/
structure Sound (c : Config) (bounds : DelayBounds) (a : Archive) : Prop where
  kept : Ledger.Kept c a.transcript.ledger
  configured : a.session.Configured c bounds
  archived : a.session.execution.history.Archived a.session.execution.player.stepCount a.captured
    a.evicted
  warnings : a.told.filterMap Event.historyLimit? = a.session.execution.history.warnings

variable {c : Config} {bounds : DelayBounds} {a : Archive}

theorem sound_opened {s : Session} (hnew : Session.new? c = .ok s) :
    ∃ bounds, Sound c bounds (opened s) := by
  obtain ⟨bounds, rfl⟩ := Session.eq_of_new? hnew
  exact ⟨bounds, Ledger.kept_opened hnew, Session.configured_new c bounds,
    History.archived_of_nothing rfl rfl, rfl⟩

/-- A reset forgets everything. -/
theorem Sound.reset (h : Sound c bounds a) : Sound c bounds (a.perform .reset) :=
  ⟨h.kept.reset, h.configured.perform .reset, History.archived_of_nothing rfl rfl, rfl⟩

theorem Sound.perform (hc : 0 < c.maxMicroSteps) (h : Sound c bounds a) {op : Operation}
    (hop : op ≠ .reset) : Sound c bounds (a.perform op) := by
  obtain ⟨hsession, hcaptured, htold, hevicted⟩ := a.perform_of_ne_reset hop
  have hkept : Ledger.Kept c (a.perform op).transcript.ledger := by
    show Ledger.Kept c (a.transcript.perform op).ledger
    rw [Transcript.perform_ledger]
    exact h.kept.perform hc hop
  have haffected := Session.perform_affected h.configured.tidy.free hop
  have hv : a.session.execution.history.Valid := h.kept.valid
  obtain ⟨new, hon, hnumbers⟩ := haffected.continues
  have hreached : ∀ s ∈ a.captured,
      s.position.stepNumber ≤ (a.session.perform op).execution.player.stepCount := by
    intro s hs
    cases hstarted : a.session.execution.started with
    | true => exact Nat.le_trans (h.archived.reached s hs) (haffected.onward hstarted).stepCount_le
    | false =>
      have hnone : a.captured = [] := h.kept.captured_eq_nil hstarted
      rw [hnone] at hs
      cases hs
  refine ⟨hkept, hsession ▸ h.configured.perform op, ?_, ?_⟩
  · rw [hcaptured, hevicted, hsession]
    unfold Session.newlyEvicted
    rw [Session.newlyCaptured_of_continues hv hon]
    exact h.archived.continues hv hon (fun s hs => Nat.le_of_eq (hnumbers s hs)) hreached
  · rw [htold, hsession, List.filterMap_append, h.warnings]
    exact Session.warnings_told h.configured.tidy hop

/-- The archive stays sound. The induction is on the operations. -/
theorem Sound.run (hc : 0 < c.maxMicroSteps) (h : Sound c bounds a) (ops : List Operation) :
    Sound c bounds (a.run ops) := by
  induction ops generalizing a with
  | nil => exact h
  | cons op ops ih =>
    refine ih ?_
    by_cases hop : op = .reset
    · rw [hop]
      exact h.reset
    · exact h.perform hc hop

/-- Step numbers increase from what was evicted to what is retained. -/
theorem Sound.increasing (hc : 0 < c.maxMicroSteps) (h : Sound c bounds a) :
    ((a.evicted ++ a.session.execution.history.retained.toList).map
      (·.position.stepNumber)).Pairwise (· < ·) :=
  (h.kept.increasing hc).sublist (h.archived.sublist.map _)

/-- The limit was told once if something was evicted. -/
theorem Sound.told_eq (h : Sound c bounds a) (hpos : 0 < c.history.maxHistory) :
    a.told.filterMap Event.historyLimit?
      = if a.evicted = [] then [] else [c.history.maxHistory] := by
  rw [h.warnings]
  unfold History.warnings
  rw [h.configured.execution.capacity_eq hpos]
  by_cases hnone : a.evicted = []
  · have hshown : ¬a.session.execution.history.limitShown = true := fun hshown =>
      h.archived.limitShown.mp hshown hnone
    rw [if_pos hnone, if_neg hshown]
  · rw [if_neg hnone, if_pos (h.archived.limitShown.mpr hnone)]

end Archive

/-- Take any session with a valid configuration and do anything with it: start runs, let its loops move at any
time and in any order, step by hand, go back and forth, pause, toggle, reset. Then:

* what was evicted since the last reset and what is retained are captures in their order, and the latest
  capture is retained;
* the retained snapshots have increasing step numbers, every evicted one has a lower number than every
  retained one, and none of these numbers is higher than the small steps that the player has taken;
* at most `maxHistory` snapshots are retained;
* since the last reset observers were told of the limit of the history once, with `maxHistory`, if a
  snapshot was evicted, and never if none was. -/
theorem retained_in_order {c : Config} {s : Session} (hnew : Session.new? c = .ok s)
    (ops : List Operation) :
    let a := (Archive.opened s).run ops
    let x := a.session.execution
    let retained := x.history.retained.toList
    a.session = s.run ops
    ∧ (a.evicted ++ retained).Sublist a.captured
    ∧ retained.getLast? = a.captured.getLast?
    ∧ (retained.map (·.position.stepNumber)).Pairwise (· < ·)
    ∧ (∀ e ∈ a.evicted, ∀ r ∈ retained, e.position.stepNumber < r.position.stepNumber)
    ∧ (∀ r ∈ a.evicted ++ retained, r.position.stepNumber ≤ x.player.stepCount)
    ∧ retained.length ≤ c.history.maxHistory
    ∧ a.told.filterMap Event.historyLimit?
        = if a.evicted = [] then [] else [c.history.maxHistory] := by
  intro a x retained
  obtain ⟨-, hc⟩ := Session.isIdle_of_new? hnew
  have hpos := Session.maxHistory_pos (Session.violation_of_new? hnew)
  obtain ⟨bounds, hopened⟩ := Archive.sound_opened hnew
  have hsound : Archive.Sound c bounds a := hopened.run hc ops
  have hincreasing := hsound.increasing hc
  rw [List.map_append, List.pairwise_append] at hincreasing
  obtain ⟨-, hretained, hlower⟩ := hincreasing
  refine ⟨Archive.run_session _ ops, hsound.archived.sublist, hsound.archived.last, hretained, ?_, ?_, ?_,
    hsound.told_eq hpos⟩
  · intro e he r hr
    exact hlower _ (List.mem_map_of_mem he) _ (List.mem_map_of_mem hr)
  · intro r hr
    exact hsound.archived.reached r (hsound.archived.sublist.subset hr)
  · rw [← hsound.configured.execution.capacity_eq hpos]
    exact hsound.kept.valid.size_le

/-- The user goes back from the second snapshot, so the loop drops it with its capture; the next capture
evicts the first one, and the limit is told. -/
theorem retained_of_oneCall :
    let a := (Archive.opened .cramped).run [.setSource Trace.oneCallText, .start, .move (.begin 1),
      .forward, .back, .toggle, .move (.begin 2), .forward]
    Session.new? .cramped = .ok .cramped
    ∧ a.evicted.map (·.position.stepNumber) = [1]
    ∧ a.session.execution.history.retained.toList.map (·.position.stepNumber) = [3, 4]
    ∧ (∀ e ∈ a.evicted, ∀ r ∈ a.session.execution.history.retained.toList,
        e.position.stepNumber < r.position.stepNumber)
    ∧ a.told.filterMap Event.historyLimit? = [2] := by
  intro a
  have hnew : Session.new? .cramped = .ok .cramped := by rfl
  have hevicted : a.evicted.map (·.position.stepNumber) = [1] := by decide +kernel
  have hretained : a.session.execution.history.retained.toList.map (·.position.stepNumber)
      = [3, 4] := by decide +kernel
  obtain ⟨-, -, -, -, hlower, -, -, htold⟩ := retained_in_order hnew [.setSource Trace.oneCallText, .start,
    .move (.begin 1), .forward, .back, .toggle, .move (.begin 2), .forward]
  refine ⟨hnew, hevicted, hretained, hlower, ?_⟩
  have hsome : a.evicted ≠ [] := by
    intro hnone
    rw [hnone] at hevicted
    cases hevicted
  rw [if_neg hsome] at htold
  exact htold

end Retrace
