import Retrace.Proofs.Session.Observers
/-!
# The limit of the history is told once

A history remembers that it has announced an eviction, and announces none after that. So what observers are
told of its limit since the last reset is what it remembers (`History.warnings`): nothing, or its capacity
once.

`Playback.Warns` relates two moments of playback in these terms: what was remembered before and what was told
in between is what is remembered after. The controls and what follows a step tell of no limit, and a step
tells of it just when its history does. Every operation is put together from these, but for a reset, which
clears the history.
-/

namespace Retrace

open Session (Operation)

/-- The limit that observers are told of, if it is that. -/
def Event.historyLimit? : Event → Option Nat
  | historyLimit capacity => some capacity
  | _ => none

namespace History

/-- What observers were told of the limit of a history since it was cleared. -/
def warnings (h : History) : List Nat := if h.limitShown then [h.capacity] else []

/-- What an append announces is what it remembers more than before. -/
theorem warnings_append (h : History) (s : Snapshot) :
    h.warnings ++ (h.append s).2.toList = (h.append s).1.warnings := by
  unfold warnings append
  simp only [dropAhead_limitShown, dropAhead_capacity]
  cases h.limitShown <;> cases decide (h.capacity ≤ h.dropAhead.size) <;> rfl

end History

/-- A captured snapshot tells of no limit. -/
theorem Snapshot.filterMap_historyLimit_announced (s : Snapshot) (previous : Option Nat) :
    (s.announced previous).filterMap Event.historyLimit? = [] := by
  unfold announced
  cases (s.transition previous).event? <;> rfl

/-- A step tells of the limit just when its history announces it. -/
theorem Execution.warnings_step (x : Execution) :
    x.history.warnings ++ x.step.2.1.filterMap Event.historyLimit? = x.step.1.history.warnings := by
  have hstep := x.stepResult
  generalize x.step = r at hstep
  cases hstep with
  | idle | failed => exact List.append_nil _
  | @onward p line =>
    cases hposition : (x.atLine p line).player.probe.position with
    | none =>
      rw [capture_of_no_position hposition]
      exact List.append_nil _
    | some position =>
      rw [history_capture hposition, events_capture hposition, ← History.warnings_append,
        List.filterMap_append, Snapshot.filterMap_historyLimit_announced, List.append_nil,
        List.filterMap_map]
      exact congrArg _ List.filterMap_some

namespace Playback

variable {p q r : Playback Execution}

/-- What is remembered of the limit at the second moment is what was remembered at the first and what
observers were told of it in between. -/
def Warns (p q : Playback Execution) : Prop :=
  ∃ events, q.log.toList = p.log.toList ++ events ∧
    p.work.history.warnings ++ events.filterMap Event.historyLimit? = q.work.history.warnings

theorem Warns.trans (h : p.Warns q) (h' : q.Warns r) : p.Warns r := by
  obtain ⟨events, hlog, hwarnings⟩ := h
  obtain ⟨events', hlog', hwarnings'⟩ := h'
  refine ⟨events ++ events', ?_, ?_⟩
  · rw [hlog', hlog, List.append_assoc]
  · rw [List.filterMap_append, ← List.append_assoc, hwarnings, hwarnings']

/-- Where nothing is told of the limit, nothing more may be remembered. -/
theorem warns_of_quiet (events : List Event) (hlog : q.log.toList = p.log.toList ++ events)
    (hquiet : ∀ e ∈ events, e.historyLimit? = none)
    (hwarnings : q.work.history.warnings = p.work.history.warnings) : p.Warns q := by
  refine ⟨events, hlog, ?_⟩
  rw [List.filterMap_eq_nil_iff.mpr hquiet, List.append_nil, hwarnings]

theorem warns_of_log_eq (hlog : q.log = p.log)
    (hwarnings : q.work.history.warnings = p.work.history.warnings) : p.Warns q :=
  warns_of_quiet [] (by rw [hlog, List.append_nil]) nofun hwarnings

theorem Warns.refl (p : Playback Execution) : p.Warns p := warns_of_log_eq rfl rfl

/-- States tell of no limit. -/
theorem TellsStates.warns (h : p.TellsStates q) (hwork : q.work = p.work) : p.Warns q := by
  obtain ⟨told, hlog⟩ := h
  refine warns_of_quiet _ hlog ?_ (congrArg (fun x : Execution => x.history.warnings) hwork)
  intro e he
  obtain ⟨status, -, rfl⟩ := List.mem_map.mp he
  rfl

theorem warns_notify {e : Event} (h : e.historyLimit? = none) : p.Warns (p.notify e) :=
  warns_of_quiet [e] Array.toList_push (fun _ he => List.mem_singleton.mp he ▸ h) rfl

theorem warns_complete (p : Playback Execution) : p.Warns p.complete := by
  rcases p.complete_cases with ⟨-, hsame⟩ | ⟨-, q, htells, hwork, hcomplete⟩
  · rw [hsame]
    exact .refl p
  · rw [hcomplete]
    exact (htells.warns hwork).trans (warns_notify rfl)

theorem warns_fail (p : Playback Execution) (e : SessionFailure) : p.Warns (p.fail e) :=
  (warns_notify rfl).trans ((tellsStates_stop _).warns rfl)

theorem warns_stepped (p : Playback Execution) : p.Warns (p.stepped Execution.workload) :=
  ⟨p.work.step.2.1, p.log_stepped, p.work.warnings_step⟩

theorem warns_move (hfree : p.gate = .free) (m : Move) : p.Warns (p.move Execution.workload m) := by
  rcases p.move_cases (w := Execution.workload) hfree m with
    ⟨-, hscene⟩ | ⟨run, q, -, hscene, hlive, hrunning, hmove⟩
  · refine warns_of_log_eq hscene.log ?_
    rw [hscene.work]
  · have hbefore : p.Warns q := by
      refine warns_of_log_eq hscene.log ?_
      rw [hscene.work]
    have hstepped := hbefore.trans q.warns_stepped
    rw [hmove, goOn_of_running Execution.instant_workload (hscene.gate.trans hfree) hlive hrunning]
    cases q.outcome Execution.workload with
    | more => exact hstepped.trans (warns_of_log_eq rfl rfl)
    | finished => exact hstepped.trans (warns_complete _)
    | failed e => exact hstepped.trans (warns_fail _ e)

theorem warns_byHand (p : Playback Execution) : p.Warns (p.byHand Execution.workload).1 := by
  unfold byHand
  split
  · exact .refl p
  · have hstepped := (p.tellsStates_heldUp.warns p.heldUp_frame.1).trans p.heldUp.warns_stepped
    cases p.heldUp.outcome Execution.workload with
    | more => exact hstepped
    | finished => exact hstepped.trans (warns_complete _)
    | failed e => exact hstepped.trans (warns_fail _ e)

end Playback

namespace Session

variable {s : Session}

theorem warns_load (s : Session) : s.playback.Warns s.load.1.playback := by
  refine Playback.warns_of_quiet s.execution.start.2.1 s.log_load ?_ ?_
  · rcases s.execution.tells_start with h | ⟨text, h⟩ | ⟨e, h⟩ <;> rw [h] <;>
      simp [Event.historyLimit?]
  · exact congrArg History.warnings s.execution.start_frame.1

/-- Moving the cursor of the history shows a snapshot at most. -/
theorem warns_moved (s : Session) (cursor : Option Nat) (snapshots : List Snapshot) :
    s.playback.Warns ((s.withExecution { s.execution with
      history := { s.execution.history with cursor := cursor } }).notify
        (snapshots.map .snapshot)).playback := by
  refine Playback.warns_of_quiet (snapshots.map .snapshot) ?_ ?_ rfl
  · unfold notify withExecution
    simp
  · intro e he
    obtain ⟨snapshot, -, rfl⟩ := List.mem_map.mp he
    rfl

theorem warns_start (s : Session) : s.playback.Warns s.start.1.playback := by
  rcases s.start_playback with hloaded | hplayed
  · rw [hloaded]
    exact s.warns_load
  · rw [hplayed]
    exact s.warns_load.trans
      ((Playback.tellsStates_play _).warns (Playback.still_play _).work_eq)

theorem warns_programmed (s : Session) : s.playback.Warns s.programmed.playback :=
  (Playback.warns_of_log_eq (q := s.playback.ticketed) rfl rfl).trans (Playback.warns_byHand _)

theorem warns_forward (ht : s.playback.Tidy) : s.playback.Warns s.forward.1.playback := by
  cases hstarted : s.execution.started with
  | true =>
    cases hcan : s.execution.history.canStepForward with
    | true =>
      rw [forward_of_ahead hstarted hcan, s.execution.history.stepForward_fst]
      exact s.warns_moved _ _
    | false =>
      rw [forward_of_last ht hstarted hcan]
      exact s.warns_programmed
  | false =>
    by_cases hload : s.load.2 = .ok .started
    · have hprimed : s.playback.Warns s.primed.playback :=
        s.warns_load.trans ((Playback.tellsStates_pause _).warns rfl)
      rw [forward_of_loaded ht hload]
      exact hprimed.trans s.primed.warns_programmed
    · rw [forward_of_refused hstarted hload]
      exact s.warns_load

theorem warns_back (s : Session) : s.playback.Warns s.back.1.playback := by
  have hcursor := s.execution.history.stepBack_fst
  unfold Session.back
  generalize s.execution.history.stepBack = moved at hcursor ⊢
  obtain ⟨history, shown⟩ := moved
  cases shown with
  | none => exact .refl _
  | some snapshot =>
    have hcursor : history = { s.execution.history with cursor := history.cursor } := hcursor
    simp only
    rw [hcursor]
    exact (s.warns_moved history.cursor [snapshot]).trans
      ((Playback.tellsStates_resumeFromCompleted _).warns (Playback.still_resumeFromCompleted _).work_eq)

/-- What an operation tells of the limit is what its history remembers more than before. -/
theorem warns_perform (ht : s.playback.Tidy) {op : Operation} (hreset : op ≠ .reset)
    (hdrain : op ≠ .drain) : s.playback.Warns (s.perform op).playback := by
  cases op with
  | reset => exact absurd rfl hreset
  | drain => exact absurd rfl hdrain
  | setSource text =>
    show s.playback.Warns (s.setSource text).1.playback
    rcases s.setSource_fst text with hlocked | hchanged
    · rw [hlocked]
      exact .refl _
    · rw [hchanged]
      exact Playback.warns_of_log_eq rfl rfl
  | start => exact s.warns_start
  | toggle =>
    show s.playback.Warns s.toggle.1.playback
    rcases s.toggle_playback with htoggled | hstarted
    · rw [htoggled]
      exact s.playback.tellsStates_toggle.warns s.playback.still_toggle.work_eq
    · rw [hstarted]
      exact s.warns_start
  | forward => exact warns_forward ht
  | back => exact s.warns_back
  | pause => exact s.playback.tellsStates_pause.warns rfl
  | setSpeed | setTurbo | attend | elapseTo => exact Playback.warns_of_log_eq rfl rfl
  | move m => exact Playback.warns_move ht.free m

/-- Taking notice of what was told forgets nothing of the history. -/
theorem warnings_told (ht : s.playback.Tidy) {op : Operation} (hreset : op ≠ .reset) :
    s.execution.history.warnings ++ (s.told op).filterMap Event.historyLimit?
      = (s.perform op).execution.history.warnings := by
  by_cases hdrain : op = .drain
  · rw [hdrain]
    have hnothing : s.told .drain = [] := List.drop_nil
    rw [hnothing]
    exact List.append_nil _
  · obtain ⟨events, hlog, hwarnings⟩ := warns_perform ht hreset hdrain
    rw [told_eq hlog]
    exact hwarnings

end Session

end Retrace
