import Mathlib.Data.List.Induction
import Retrace.Proofs.Playback.Displays
import Retrace.Proofs.Session.Forward
import Retrace.Proofs.Session.Reconstruction
/-!
# Observers can rebuild the run

What observers are told of the program comes from two sources. A step that captures a snapshot shows it, and
right after it the call or return that is read off it; and going back and forth shows the snapshot that is
then under the cursor. Every operation comes to one of these, or shows nothing of the program
(`Session.Shows`).

So the calls that observers were told of since the last reset are those of the captured snapshots, in their
order, and a call tree that is built from them is that of the session (`observers_rebuild_run`). What was
told is collected beside the session in a `Transcript`.
-/

namespace Retrace

open Session (Operation newlyCaptured IsIdle IsPlaying)

/-- The change of the call tree that observers are told of, if it is one. -/
def Event.call? : Event → Option CallEvent
  | call c => some c
  | _ => none

/-- What steps tell of the snapshots that they capture, one after the other. -/
def Snapshot.script (previous : Option Nat) : List Snapshot → List Event
  | [] => []
  | s :: later => s.announced previous ++ script (some s.depth) later

/-- The depth of the last of several snapshots. -/
def Snapshot.lastDepth? (captured : List Snapshot) : Option Nat := captured.getLast?.map Snapshot.depth

theorem Snapshot.script_concat (s : Snapshot) (captured : List Snapshot) (previous : Option Nat) :
    script previous (captured ++ [s]) = script previous captured
      ++ s.announced ((captured.getLast?.map Snapshot.depth).or previous) := by
  induction captured generalizing previous with
  | nil => simp [script]
  | cons first captured ih =>
    show first.announced previous ++ script (some first.depth) (captured ++ [s]) = _
    rw [ih, ← List.append_assoc, List.getLast?_cons]
    cases captured.getLast? <;> rfl

namespace Gathered

/-- The baseline is the depth of the last snapshot. -/
theorem baseline_ofSnapshots (captured : List Snapshot) :
    (ofSnapshots captured).baseline = ⟨Snapshot.lastDepth? captured⟩ := by
  induction captured using List.reverseRecOn with
  | nil => rfl
  | append_singleton captured s _ =>
    rw [ofSnapshots_concat, Snapshot.lastDepth?, List.getLast?_concat]
    rfl

/-- And the call tree is the one that is built from what is told of the snapshots. -/
theorem tracker_ofSnapshots (captured : List Snapshot) :
    (ofSnapshots captured).tracker
      = ((Snapshot.script none captured).filterMap Event.call?).foldl Tracker.follow .empty := by
  induction captured using List.reverseRecOn with
  | nil => rfl
  | append_singleton captured s ih =>
    rw [ofSnapshots_concat, Snapshot.script_concat, List.filterMap_append, List.foldl_append, ← ih,
      Option.or_none]
    have hbaseline := baseline_ofSnapshots captured
    unfold observe Baseline.observe
    rw [hbaseline]
    simp only [Snapshot.announced, Snapshot.lastDepth?]
    cases (s.transition (captured.getLast?.map Snapshot.depth)).event? <;> rfl

end Gathered

namespace History

theorem current_of_stepBack {h : History} {s : Snapshot} (hs : h.stepBack.2 = some s) :
    h.stepBack.1.current? = some s := by
  unfold stepBack at hs ⊢
  split at hs
  next hcan =>
    rw [if_pos hcan]
    exact hs
  next => cases hs

theorem current_of_stepForward {h : History} {s : Snapshot} (hs : h.stepForward.2 = some s) :
    h.stepForward.1.current? = some s := by
  unfold stepForward at hs ⊢
  split at hs
  next hcan =>
    rw [if_pos hcan]
    exact hs
  next => cases hs

/-- What is under the cursor is retained. -/
theorem mem_retained_of_current {h : History} {s : Snapshot} (hs : h.current? = some s) :
    s ∈ h.retained := by
  obtain ⟨i, -, hi⟩ := Option.bind_eq_some_iff.mp hs
  exact Array.mem_of_getElem? hi

end History

namespace Execution

/-- A step shows nothing of the program and captures nothing, or it captures one snapshot, which is then
under the cursor, and tells of it. An eviction is told before. -/
inductive Finding (x : Execution) : Prop where
  | nothing (hevents : x.step.2.1 = [])
      (hcaptures : x.step.1.history.captures = x.history.captures)
  | captured (limit : Option Nat) (s : Snapshot)
      (hevents : x.step.2.1
        = limit.toList.map .historyLimit ++ s.announced x.baseline.depth)
      (hcaptures : x.step.1.history.captures = x.history.captures + 1)
      (hcurrent : x.step.1.history.current? = some s)

theorem finding {x : Execution} (hv : x.history.Valid) : Finding x := by
  have hstep := x.stepResult
  generalize hr : x.step = r at hstep
  cases hstep with
  | idle | failed => refine .nothing ?_ ?_ <;> rw [hr]
  | @onward p line =>
    cases hposition : (x.atLine p line).player.probe.position with
    | none =>
      refine .nothing ?_ ?_ <;> rw [hr, capture_of_no_position hposition]
      rfl
    | some position =>
      have hcounted := hv.withCaptures (x.history.captures + 1)
      have hevents := events_capture hposition
      refine .captured _ _ ((congrArg (fun stepped => stepped.2.1) hr).trans hevents) ?_ ?_
      · rw [hr, history_capture hposition]
        exact History.append_captures _ _
      · rw [hr, history_capture hposition]
        exact hcounted.append_current _

/-- Loading a source touches nothing that was gathered. -/
theorem start_frame (x : Execution) :
    x.start.1.history = x.history ∧ x.start.1.baseline = x.baseline := by
  unfold start
  split
  · exact ⟨rfl, rfl⟩
  · split
    · exact ⟨rfl, rfl⟩
    · simp only
      generalize x.player.load x.source = loaded
      obtain ⟨p, r⟩ := loaded
      cases r <;> exact ⟨rfl, rfl⟩

/-- It tells of a missing source or of a failure, or of nothing. -/
theorem tells_start (x : Execution) : x.start.2.1 = [] ∨ (∃ text, x.start.2.1 = [.warning text])
    ∨ ∃ e, x.start.2.1 = [.failed e] := by
  unfold start
  split
  · exact Or.inl rfl
  · split
    · exact Or.inr (Or.inl ⟨_, rfl⟩)
    · simp only
      generalize x.player.load x.source = loaded
      obtain ⟨p, r⟩ := loaded
      cases r with
      | ok _ => exact Or.inl rfl
      | error e => exact Or.inr (Or.inr ⟨_, rfl⟩)

/-- It shows nothing of the program. -/
theorem quiet_start (x : Execution) : ∀ e ∈ x.start.2.1, e.showsProgram = false := by
  rcases x.tells_start with h | ⟨text, h⟩ | ⟨e, h⟩ <;> rw [h] <;> simp [Event.showsProgram]

end Execution

namespace Playback

variable {p q r : Playback Execution} {taken taken' : Prop}

/-- From the first to the second nothing of the program is shown and nothing captured; or a step is taken
and captures a snapshot, which is then under the cursor, and observers are told of it. -/
inductive Captures (taken : Prop) (p q : Playback Execution) : Prop where
  | nothing (hdisplays : p.Displays q [])
      (hcaptures : q.work.history.captures = p.work.history.captures)
  | captured (s : Snapshot) (htaken : taken)
      (hdisplays : p.Displays q (s.announced p.work.baseline.depth))
      (hcaptures : q.work.history.captures = p.work.history.captures + 1)
      (hcurrent : q.work.history.current? = some s)

theorem Captures.mono (h : Captures taken p q) (himp : taken → taken') : Captures taken' p q := by
  cases h with
  | nothing hdisplays hcaptures => exact .nothing hdisplays hcaptures
  | captured s htaken hdisplays hcaptures hcurrent =>
    exact .captured s (himp htaken) hdisplays hcaptures hcurrent

theorem Captures.after (h : Captures taken q r) (hdisplays : p.Displays q [])
    (hhistory : q.work.history = p.work.history) (hbaseline : q.work.baseline = p.work.baseline) :
    Captures taken p r := by
  cases h with
  | nothing hdisplays' hcaptures =>
    exact .nothing (hdisplays'.after hdisplays) (hcaptures.trans (congrArg _ hhistory))
  | captured s htaken hdisplays' hcaptures hcurrent =>
    rw [hbaseline] at hdisplays'
    rw [hhistory] at hcaptures
    exact .captured s htaken (hdisplays'.after hdisplays) hcaptures hcurrent

theorem Captures.then (h : Captures taken p q) (hdisplays : q.Displays r []) (hwork : r.work = q.work) :
    Captures taken p r := by
  cases h with
  | nothing hdisplays' hcaptures =>
    exact .nothing (hdisplays'.then hdisplays) (hwork ▸ hcaptures)
  | captured s htaken hdisplays' hcaptures hcurrent =>
    exact .captured s htaken (hdisplays'.then hdisplays) (hwork ▸ hcaptures) (hwork ▸ hcurrent)

theorem log_stepped (p : Playback Execution) :
    (p.stepped Execution.workload).log.toList = p.log.toList ++ p.work.step.2.1 := by
  show (p.log ++ p.work.step.2.1.toArray).toList = _
  simp

theorem captures_stepped (hv : p.work.history.Valid) (htaken : taken) :
    Captures taken p (p.stepped Execution.workload) := by
  have hlog := p.log_stepped
  cases Execution.finding hv with
  | nothing hevents hcaptures =>
    rw [hevents] at hlog
    exact .nothing (displays_of_events _ hlog nofun) hcaptures
  | captured limit s hevents hcaptures hcurrent =>
    refine .captured s htaken ⟨limit.toList.map .historyLimit, [], ?_, ?_⟩ hcaptures hcurrent
    · intro e he
      rw [List.append_nil] at he
      obtain ⟨n, -, rfl⟩ := List.mem_map.mp he
      rfl
    · rw [hlog, hevents, List.append_nil]

theorem captures_move (hfree : p.gate = .free) (hv : p.work.history.Valid) (m : Move) :
    Captures (∃ run, p.LoopBegins (.move m) run) p (p.move Execution.workload m) := by
  rcases p.move_cases (w := Execution.workload) hfree m with
    ⟨-, hscene⟩ | ⟨run, q, hbegins, hscene, hlive, hrunning, hmove⟩
  · refine .nothing (displays_of_log_eq hscene.log) ?_
    rw [hscene.work]
  · have hstepped : Captures (∃ run, p.LoopBegins (.move m) run) q (q.stepped Execution.workload) :=
      captures_stepped (hscene.work.symm ▸ hv) ⟨run, hbegins⟩
    have hwent : Captures (∃ run, p.LoopBegins (.move m) run) q (p.move Execution.workload m) := by
      rw [hmove, goOn_of_running Execution.instant_workload (hscene.gate.trans hfree) hlive hrunning]
      cases q.outcome Execution.workload with
      | more => exact hstepped.then (displays_of_log_eq rfl) rfl
      | finished => exact hstepped.then (displays_complete _) (complete_work _)
      | failed e => exact hstepped.then (displays_fail _ e) rfl
    exact hwent.after (displays_of_log_eq hscene.log) (congrArg _ hscene.work) (congrArg _ hscene.work)

theorem captures_byHand (hv : p.work.history.Valid) :
    Captures (p.status.completed = false) p (p.byHand Execution.workload).1 := by
  obtain ⟨hwork, -⟩ := p.heldUp_frame
  unfold byHand
  cases hcompleted : p.status.completed with
  | true => exact .nothing (.refl p) rfl
  | false =>
    rw [if_neg Bool.false_ne_true]
    have hstepped : Captures (false = false) p (p.heldUp.stepped Execution.workload) :=
      (captures_stepped (hwork.symm ▸ hv) rfl).after p.tellsStates_heldUp.displays (congrArg _ hwork)
        (congrArg _ hwork)
    cases p.heldUp.outcome Execution.workload with
    | more => exact hstepped
    | finished => exact hstepped.then (displays_complete _) (complete_work _)
    | failed e => exact hstepped.then (displays_fail _ e) rfl

end Playback

namespace Session

variable {c : Config} {bounds : DelayBounds} {s : Session} {op : Operation}

/-- What an operation shows observers of the program: what it captures, or where the user has gone in the
history. -/
inductive Shows (s : Session) (op : Operation) : Prop where
  | steps (h : Playback.Captures (s.TakesStep op) s.playback (s.perform op).playback)
  | navigates (snapshot : Snapshot) (hop : op = .back ∨ op = .forward) (hstays : ¬ s.TakesStep op)
      (hdisplays : s.playback.Displays (s.perform op).playback [.snapshot snapshot])
      (hcaptures : (s.perform op).execution.history.captures = s.execution.history.captures)
      (hcurrent : (s.perform op).current? = some snapshot)

/-- An operation that leaves the execution alone but for the source, and tells states at most. -/
theorem shows_of_still {p : Playback Execution} (hp : (s.perform op).playback = p)
    (hstill : s.playback.Still p) (htells : s.playback.TellsStates p) : s.Shows op := by
  refine .steps (.nothing (hp ▸ htells.displays) ?_)
  rw [hp, hstill.work_eq]

theorem displays_load (s : Session) : s.playback.Displays s.load.1.playback [] :=
  Playback.displays_of_events s.execution.start.2.1 s.log_load s.execution.quiet_start

theorem shows_of_load (hp : (s.perform op).playback = s.load.1.playback ∨
    (s.perform op).playback = s.load.1.playback.play.1) : s.Shows op := by
  have hcaptures : s.load.1.playback.work.history.captures = s.playback.work.history.captures :=
    congrArg History.captures s.execution.start_frame.1
  rcases hp with hp | hp
  · exact .steps (.nothing (hp ▸ s.displays_load) (hp ▸ hcaptures))
  · refine .steps (.nothing (hp ▸ s.displays_load.then s.load.1.playback.tellsStates_play.displays) ?_)
    rw [hp, (Playback.still_play _).work_eq]
    exact hcaptures

/-- A snapshot is shown that the cursor was moved to. -/
theorem displays_moved (s : Session) (x : Execution) (snapshot : Snapshot) :
    s.playback.Displays ((s.withExecution x).notify [.snapshot snapshot]).playback
      [.snapshot snapshot] := by
  refine ⟨[], [], nofun, ?_⟩
  unfold notify withExecution
  simp

theorem shows_back (s : Session) : s.Shows .back := by
  have hstays : ¬ s.TakesStep .back := fun ⟨_, _, hsteps⟩ => nomatch hsteps
  cases hback : s.execution.history.stepBack with
  | mk history shown =>
    cases shown with
    | none =>
      have hkept : (s.perform .back).playback = s.playback := by
        show s.back.1.playback = s.playback
        unfold Session.back
        rw [hback]
      exact shows_of_still hkept ⟨rfl, rfl, id⟩ (.refl _)
    | some snapshot =>
      have hmoved : (s.perform .back).playback
          = ((s.withExecution { s.execution with history := history }).notify
              [.snapshot snapshot]).playback.resumeFromCompleted.1 := by
        show s.back.1.playback = _
        unfold Session.back
        rw [hback]
      have hwork : (s.perform .back).execution = { s.execution with history := history } :=
        (congrArg Playback.work hmoved).trans (Playback.still_resumeFromCompleted _).work_eq
      have hcurrent := History.current_of_stepBack (congrArg Prod.snd hback)
      have hcaptures : history.captures = s.execution.history.captures := by
        have hcursor := s.execution.history.stepBack_fst
        rw [hback] at hcursor
        exact (congrArg History.captures hcursor :)
      refine .navigates snapshot (Or.inl rfl) hstays ?_ ?_ ?_
      · rw [hmoved]
        exact (s.displays_moved _ snapshot).then (Playback.tellsStates_resumeFromCompleted _).displays
      · rw [hwork]
        exact hcaptures
      · unfold current?
        rw [hwork]
        rw [hback] at hcurrent
        exact hcurrent

/-- A step by hand of a session that came about by loading, if at all. -/
theorem captures_programmed {v : Session} {taken : Prop} (hv : v.execution.history.Valid)
    (htaken : v.playback.status.completed = false → taken) (hdisplays : s.playback.Displays v.playback [])
    (hhistory : v.execution.history = s.execution.history)
    (hbaseline : v.execution.baseline = s.execution.baseline) :
    Playback.Captures taken s.playback v.programmed.playback := by
  have hticketed : v.playback.Displays v.playback.ticketed [] := Playback.displays_of_log_eq rfl
  have hstepped := Playback.captures_byHand (p := v.playback.ticketed) hv
  exact (hstepped.mono htaken).after (hticketed.after hdisplays) hhistory hbaseline

theorem shows_forward (ht : s.playback.Tidy) (hv : s.execution.history.Valid)
    (hopen : s.execution.started = false → s.playback.status.completed = false) :
    s.Shows .forward := by
  cases hstarted : s.execution.started with
  | true =>
    cases hcan : s.execution.history.canStepForward with
    | true =>
      -- a replay from the history
      have hstays : ¬ s.TakesStep .forward := by
        rintro ⟨-, v, hsteps⟩
        cases hsteps with
        | hand _ hend => exact nomatch hcan.symm.trans hend
        | first hload => exact nomatch hstarted.symm.trans (Execution.start_of_started hload).1
      obtain ⟨snapshot, hsnapshot⟩ := Option.isSome_iff_exists.mp
        (History.stepForward_isSome.trans hcan)
      have hmoved : s.perform .forward = (s.withExecution { s.execution with
          history := s.execution.history.stepForward.1 }).notify [.snapshot snapshot] := by
        show s.forward.1 = _
        rw [forward_of_ahead hstarted hcan, hsnapshot]
        rfl
      refine .navigates snapshot (Or.inr rfl) hstays ?_ ?_ ?_
      · rw [hmoved]
        exact s.displays_moved _ snapshot
      · rw [hmoved]
        exact (congrArg History.captures s.execution.history.stepForward_fst :)
      · rw [hmoved]
        exact History.current_of_stepForward hsnapshot
    | false =>
      refine .steps ?_
      show Playback.Captures _ s.playback s.forward.1.playback
      rw [forward_of_last ht hstarted hcan]
      exact captures_programmed hv (fun hopen => ⟨hopen, s, .hand hstarted hcan⟩) (.refl _) rfl rfl
  | false =>
    by_cases hload : s.load.2 = .ok .started
    · refine .steps ?_
      show Playback.Captures _ s.playback s.forward.1.playback
      rw [forward_of_loaded ht hload]
      obtain ⟨hhistory, hbaseline⟩ := s.execution.start_frame
      refine captures_programmed ?_ (fun _ => ⟨hopen hstarted, s.primed, .first hload⟩) ?_ hhistory
        hbaseline
      · rw [execution_primed, hhistory]
        exact hv
      · exact s.displays_load.then (Playback.tellsStates_pause _).displays
    · refine shows_of_load (Or.inl ?_)
      show s.forward.1.playback = s.load.1.playback
      rw [forward_of_refused hstarted hload]

/-- Every operation shows what it captures, or where the user has gone, or nothing of the program. -/
theorem shows_perform (ht : s.playback.Tidy) (hv : s.execution.history.Valid)
    (hopen : s.execution.started = false → s.playback.status.completed = false) (op : Operation)
    (hreset : op ≠ .reset) (hdrain : op ≠ .drain) : s.Shows op := by
  cases op with
  | reset => exact absurd rfl hreset
  | drain => exact absurd rfl hdrain
  | setSource text =>
    refine .steps ?_
    show Playback.Captures _ s.playback (s.setSource text).1.playback
    rcases s.setSource_fst text with hlocked | hchanged
    · rw [hlocked]
      exact .nothing (.refl _) rfl
    · rw [hchanged]
      exact .nothing (Playback.displays_of_log_eq rfl) rfl
  | start => exact shows_of_load s.start_playback
  | toggle =>
    rcases s.toggle_playback with htoggled | hstarted
    · exact shows_of_still htoggled s.playback.still_toggle s.playback.tellsStates_toggle
    · refine shows_of_load ?_
      show s.toggle.1.playback = _ ∨ s.toggle.1.playback = _
      rw [hstarted]
      exact s.start_playback
  | forward => exact shows_forward ht hv hopen
  | back => exact s.shows_back
  | pause => exact shows_of_still rfl s.playback.still_pause s.playback.tellsStates_pause
  | setSpeed | setTurbo | attend | elapseTo =>
    exact .steps (.nothing (Playback.displays_of_log_eq rfl) rfl)
  | move m =>
    refine .steps ((Playback.captures_move ht.free hv m).mono fun ⟨run, hbegins⟩ => ?_)
    exact ⟨(Status.isRunning_iff.mp hbegins.live.2).2.2, s, .loop hbegins⟩

/-- What an operation shows observers of the program, after the given captures. -/
inductive Showing (s : Session) (op : Operation) (captured : List Snapshot) : List Event → Prop where
  | nothing (hnone : newlyCaptured s (s.perform op) = []) : Showing s op captured []
  /-- A step of the program is taken and captures a snapshot. -/
  | captured {snapshot : Snapshot} (htaken : s.TakesStep op)
      (hnew : newlyCaptured s (s.perform op) = [snapshot]) :
      Showing s op captured (snapshot.announced (Snapshot.lastDepth? captured))
  /-- The user goes back or forth in the history. -/
  | navigated {snapshot : Snapshot} (hop : op = .back ∨ op = .forward) (hstays : ¬ s.TakesStep op)
      (hnone : newlyCaptured s (s.perform op) = []) (hcurrent : (s.perform op).current? = some snapshot)
      (hretained : snapshot ∈ (s.perform op).execution.history.retained) :
      Showing s op captured [.snapshot snapshot]

theorem told_of_displays {shown : List Event}
    (h : s.playback.Displays (s.perform op).playback shown) :
    ∃ before after, s.told op = before ++ shown ++ after ∧
      ∀ e ∈ before ++ after, e.showsProgram = false := by
  obtain ⟨before, after, hquiet, hlog⟩ := h
  exact ⟨before, after, told_eq hlog, hquiet⟩

/-- Of the program an operation shows what it captures, or where the user has gone, and no more. -/
theorem exists_showing {captured : List Snapshot} (ht : s.playback.Tidy)
    (hstate : IsIdle c s ∨ ∃ t captured, IsPlaying c t s captured)
    (hbaseline : s.execution.baseline = ⟨Snapshot.lastDepth? captured⟩) (op : Operation) :
    ∃ before shown after, s.told op = before ++ shown ++ after ∧
      (∀ e ∈ before ++ after, e.showsProgram = false) ∧ s.Showing op captured shown := by
  have hv : s.execution.history.Valid := by
    rcases hstate with hidle | ⟨t, captured, hplaying⟩
    · exact hidle.idle.history
    · exact hplaying.playing.history
  have hopen : s.execution.started = false → s.playback.status.completed = false := by
    rcases hstate with hidle | ⟨t, captured, hplaying⟩
    · exact fun _ => hidle.not_completed
    · exact fun hstarted => nomatch hstarted.symm.trans hplaying.playing.started
  by_cases hreset : op = .reset
  · subst hreset
    have hdisplays : s.playback.Displays (s.perform .reset).playback [] :=
      s.playback.tellsStates_reset.displays
    obtain ⟨before, after, htold, hquiet⟩ := told_of_displays hdisplays
    exact ⟨before, [], after, htold, hquiet, .nothing (if_neg (Nat.not_lt_zero _))⟩
  by_cases hdrain : op = .drain
  · subst hdrain
    exact ⟨[], [], [], List.drop_nil, nofun, .nothing (newlyCaptured_of_eq rfl)⟩
  rcases shows_perform ht hv hopen op hreset hdrain with
    hsteps | ⟨snapshot, hop, hstays, hdisplays, hcaptures, hcurrent⟩
  · cases hsteps with
    | nothing hdisplays hcaptures =>
      obtain ⟨before, after, htold, hquiet⟩ := told_of_displays hdisplays
      exact ⟨before, [], after, htold, hquiet, .nothing (newlyCaptured_of_eq hcaptures)⟩
    | captured snapshot htaken hdisplays hcaptures hcurrent =>
      obtain ⟨before, after, htold, hquiet⟩ := told_of_displays hdisplays
      have hdepth : s.playback.work.baseline.depth = Snapshot.lastDepth? captured :=
        congrArg Baseline.depth hbaseline
      rw [hdepth] at htold
      exact ⟨before, _, after, htold, hquiet,
        .captured htaken (newlyCaptured_of_current hcaptures hcurrent)⟩
  · obtain ⟨before, after, htold, hquiet⟩ := told_of_displays hdisplays
    exact ⟨before, _, after, htold, hquiet, .navigated hop hstays (newlyCaptured_of_eq hcaptures)
      hcurrent (History.mem_retained_of_current hcurrent)⟩

end Session

/-- A ledger of a session with what observers were told since the last reset. -/
structure Transcript where
  ledger : Ledger
  told : List Event
  /-- What operations that captured something showed of the program. -/
  live : List Event

namespace Transcript

def session (t : Transcript) : Session := t.ledger.session

def captured (t : Transcript) : List Snapshot := t.ledger.captured

/-- The transcript of a session in which nothing has happened. -/
def opened (s : Session) : Transcript := ⟨.opened s, [], []⟩

/-- The transcript after an operation. -/
def perform (t : Transcript) (op : Operation) : Transcript :=
  match op with
  | .reset => ⟨t.ledger.perform .reset, [], []⟩
  | op =>
    let told := t.session.told op
    let live := if (newlyCaptured t.session (t.session.perform op)).isEmpty then []
      else told.filter Event.showsProgram
    ⟨t.ledger.perform op, t.told ++ told, t.live ++ live⟩

/-- The transcript after several operations. -/
def run (t : Transcript) (ops : List Operation) : Transcript := ops.foldl perform t

theorem perform_of_ne_reset (t : Transcript) {op : Operation} (hop : op ≠ .reset) :
    t.perform op = ⟨t.ledger.perform op, t.told ++ t.session.told op,
      t.live ++ if (newlyCaptured t.session (t.session.perform op)).isEmpty then []
        else (t.session.told op).filter Event.showsProgram⟩ := by
  cases op with
  | reset => exact absurd rfl hop
  | _ => rfl

theorem perform_ledger (t : Transcript) (op : Operation) :
    (t.perform op).ledger = t.ledger.perform op := by
  cases op <;> rfl

theorem run_ledger (t : Transcript) (ops : List Operation) :
    (t.run ops).ledger = t.ledger.run ops := by
  induction ops generalizing t with
  | nil => rfl
  | cons op ops ih =>
    show ((t.perform op).run ops).ledger = (t.ledger.perform op).run ops
    rw [ih, perform_ledger]

/-- What does not show the program tells of no call. -/
theorem filterMap_call_of_quiet {events : List Event}
    (h : ∀ e ∈ events, e.showsProgram = false) : events.filterMap Event.call? = [] := by
  rw [List.filterMap_eq_nil_iff]
  intro e he
  have hquiet := h e he
  cases e <;> first | rfl | cases hquiet

theorem filter_showsProgram_announced (s : Snapshot) (previous : Option Nat) :
    (s.announced previous).filter Event.showsProgram = s.announced previous := by
  unfold Snapshot.announced
  cases (s.transition previous).event? <;> rfl

/-- A transcript in which all that operations showed when they captured something is what the snapshots
tell, and in which no other calls were told of. -/
structure Faithful (c : Config) (bounds : DelayBounds) (t : Transcript) : Prop where
  kept : Ledger.Kept c t.ledger
  configured : t.session.Configured c bounds
  live : t.live = Snapshot.script none t.captured
  calls : t.told.filterMap Event.call? = t.live.filterMap Event.call?

variable {c : Config} {bounds : DelayBounds} {t : Transcript}

/-- A ledger is kept of a session that is idle or plays. -/
theorem Faithful.state (h : Faithful c bounds t) :
    IsIdle c t.session ∨ ∃ trace captured, IsPlaying c trace t.session captured := by
  cases h.kept with
  | idle hidle => exact Or.inl hidle
  | playing trace _ hpaced => exact Or.inr ⟨trace, _, hpaced.session⟩

theorem Faithful.showing (h : Faithful c bounds t) (op : Operation) :
    ∃ before shown after, t.session.told op = before ++ shown ++ after ∧
      (∀ e ∈ before ++ after, e.showsProgram = false) ∧ t.session.Showing op t.captured shown := by
  refine Session.exists_showing h.configured.tidy h.state ?_ op
  have hgathered := congrArg Gathered.baseline h.kept.gathered_eq.1
  exact hgathered.trans (Gathered.baseline_ofSnapshots t.captured)

theorem Faithful.reset (h : Faithful c bounds t) : Faithful c bounds (t.perform .reset) :=
  ⟨h.kept.reset, h.configured.perform .reset, rfl, rfl⟩

theorem Faithful.perform (hc : 0 < c.maxMicroSteps) (h : Faithful c bounds t) {op : Operation}
    (hop : op ≠ .reset) : Faithful c bounds (t.perform op) := by
  obtain ⟨hsession, hcaptured, -⟩ := t.ledger.perform_of_ne_reset hop
  have hkept := h.kept.perform hc hop
  have hconfigured : (t.ledger.perform op).session.Configured c bounds :=
    hsession ▸ h.configured.perform op
  obtain ⟨before, shown, after, htold, hquiet, hshowing⟩ := h.showing op
  have hbefore : ∀ e ∈ before, e.showsProgram = false := fun e he =>
    hquiet e (List.mem_append_left _ he)
  have hafter : ∀ e ∈ after, e.showsProgram = false := fun e he =>
    hquiet e (List.mem_append_right _ he)
  have hcalls : (t.session.told op).filterMap Event.call? = shown.filterMap Event.call? := by
    rw [htold, List.filterMap_append, List.filterMap_append, filterMap_call_of_quiet hbefore,
      filterMap_call_of_quiet hafter, List.nil_append, List.append_nil]
  have hshown : (t.session.told op).filter Event.showsProgram = shown.filter Event.showsProgram := by
    have hnone : ∀ events : List Event, (∀ e ∈ events, e.showsProgram = false) →
        events.filter Event.showsProgram = [] := fun events hevents =>
      List.filter_eq_nil_iff.mpr fun e he => by rw [hevents e he]; exact Bool.false_ne_true
    rw [htold, List.filter_append, List.filter_append, hnone before hbefore, hnone after hafter,
      List.nil_append, List.append_nil]
  rw [t.perform_of_ne_reset hop]
  refine ⟨hkept, hconfigured, ?_, ?_⟩
  · show _ = Snapshot.script none (t.ledger.perform op).captured
    rw [hcaptured]
    show _ = Snapshot.script none (t.captured ++ newlyCaptured t.session (t.session.perform op))
    cases hshowing with
    | nothing hnone | navigated _ _ hnone _ _ =>
      rw [hnone, List.append_nil, ← h.live]
      exact List.append_nil _
    | captured _ hnew =>
      rw [hnew, Snapshot.script_concat, Option.or_none, ← h.live, hshown, filter_showsProgram_announced]
      rfl
  · show (t.told ++ _).filterMap Event.call? = (t.live ++ _).filterMap Event.call?
    rw [List.filterMap_append, List.filterMap_append, h.calls, hcalls]
    congr 1
    cases hshowing with
    | nothing hnone | navigated _ _ hnone _ _ =>
      rw [hnone]
      rfl
    | captured _ hnew =>
      rw [hnew, hshown, filter_showsProgram_announced]
      rfl

/-- The transcript stays faithful. The induction is on the operations. -/
theorem Faithful.run (hc : 0 < c.maxMicroSteps) (h : Faithful c bounds t) (ops : List Operation) :
    Faithful c bounds (t.run ops) := by
  induction ops generalizing t with
  | nil => exact h
  | cons op ops ih =>
    refine ih ?_
    by_cases hop : op = .reset
    · rw [hop]
      exact h.reset
    · exact h.perform hc hop

end Transcript

open Transcript in
/-- Take any session with a valid configuration and do anything with it: start runs, let its loops move at
any time and in any order, step by hand, go back and forth, pause, reset. Whoever is told of the calls and
returns since the last reset, and lets an empty tracker follow them in that order, has the tracker of the
session. What operations showed when they captured something are the captured snapshots in the order of
their steps, each followed by its call or return if it shows one. And whatever is done next, it shows
something of the program in one of two ways: a step captures a snapshot and shows it once, and right after
it its call or return, or nothing more; or the user goes back or forth, and the one snapshot shown is
retained and under the cursor then. -/
theorem observers_rebuild_run {c : Config} {s : Session} (hnew : Session.new? c = .ok s)
    (ops : List Operation) :
    let t := (opened s).run ops
    t.session = s.run ops
    ∧ (t.told.filterMap Event.call?).foldl Tracker.follow .empty = t.session.execution.tracker
    ∧ t.live = Snapshot.script none t.captured
    ∧ (t.captured.map (·.position.stepNumber)).Pairwise (· < ·)
    ∧ ∀ op, ∃ before shown after, t.session.told op = before ++ shown ++ after ∧
        (∀ e ∈ before ++ after, e.showsProgram = false) ∧ t.session.Showing op t.captured shown := by
  intro t
  obtain ⟨-, hc⟩ := Session.isIdle_of_new? hnew
  obtain ⟨bounds, heq⟩ := Session.eq_of_new? hnew
  have hfirst : Faithful c bounds (opened s) :=
    ⟨Ledger.kept_opened hnew, heq ▸ Session.configured_new c bounds, rfl, rfl⟩
  have h : Faithful c bounds t := hfirst.run hc ops
  have hsession : t.session = s.run ops := by
    show (Transcript.run _ ops).ledger.session = _
    rw [run_ledger, Ledger.run_session]
    rfl
  refine ⟨hsession, ?_, h.live, h.kept.increasing hc, h.showing⟩
  rw [h.calls, h.live, ← Gathered.tracker_ofSnapshots]
  exact (congrArg Gathered.tracker h.kept.gathered_eq.1).symm

/-- Three steps are taken, of which the second shows a call and the third its return; in between the user
goes back and forth. -/
theorem observers_of_oneCall :
    let ops := [.setSource Trace.oneCallText, .forward, .forward, .back, .forward, .forward]
    let t := (Transcript.opened .cramped).run ops
    Session.new? .cramped = .ok .cramped
    ∧ t.captured.length = 3 ∧ t.live.length = 5 ∧ (t.told.filter Event.showsProgram).length = 7
    ∧ (t.told.filterMap Event.call?).length = 2
    ∧ (t.told.filterMap Event.call?).foldl Tracker.follow .empty = t.session.execution.tracker := by
  intro ops t
  have hnew : Session.new? .cramped = .ok .cramped := by rfl
  obtain ⟨-, hrebuilt, -⟩ := observers_rebuild_run hnew ops
  exact ⟨hnew, by decide +kernel, by decide +kernel, by decide +kernel, by decide +kernel, hrebuilt⟩

end Retrace
