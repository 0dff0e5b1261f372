import Retrace.Proofs.Playback.Interleaving
import Retrace.Proofs.Playback.Reports
import Retrace.Proofs.Trace.Ending
import Retrace.Proofs.Session.Configured
import Retrace.Proofs.Session.Captures
/-!
# A step that fails

A step of the program that fails is counted, unlocks the source and stops playback. Nothing of what was
gathered so far is touched by it (`Halted`), and observers are told of one result, the failure.

From then on there is nothing more to play (`Execution.Over`), and it stays so until a reset. No operation
captures anything any more, none tells of another failure, and what is retained is there to go back and
forth in. The steps of the argument are on the execution (`Over.affected`) and on what is told
(`finds_perform`), one operation each.
-/

namespace Retrace

namespace Player

variable {p p' : Player} {e : RunFailure}

/-- A small step that fails leaves nothing more to play. -/
theorem isDone_of_microStep (h : p.microStep = (p', .error e)) : p'.isDone = true := by
  have hfailed : ∀ q : Player, ({ q with failure := some e } : Player).isDone = true := fun q => by
    simp [isDone]
  unfold microStep fail at h
  split at h
  · cases h
  · split at h
    · cases h
      exact hfailed _
    · split at h
      · cases h
        exact hfailed _
      · split at h
        · cases h
        · simp only at h
          split at h
          · cases h
            exact hfailed _
          · cases h

theorem isDone_of_walk (start : Option Nat) : ∀ (remaining spent : Nat) (p : Player),
    walk start remaining spent p = (p', .error e) → p'.isDone = true
  | 0, _, _, h => nomatch h
  | remaining + 1, spent, p, h => by
    unfold walk at h
    split at h
    next p₁ e₁ he =>
      cases h
      exact isDone_of_microStep he
    next => cases h
    next p₁ _ =>
      simp only at h
      split at h
      · cases h
      · exact isDone_of_walk start remaining (spent + 1) p₁ h

/-- Neither had a player finished before a step that fails, nor does it leave anything to play. -/
theorem isDone_of_stepToNextLine {ceiling : Nat} (h : (p.stepToNextLine ceiling).2 = .error e) :
    p.isDone = false ∧ (p.stepToNextLine ceiling).1.isDone = true := by
  constructor
  · cases hdone : p.isDone with
    | false => rfl
    | true =>
      rw [stepToNextLine_of_isDone hdone] at h
      cases h
  · have hboth : p.stepToNextLine ceiling = ((p.stepToNextLine ceiling).1, .error e) :=
      Prod.ext rfl h
    generalize (p.stepToNextLine ceiling).1 = p' at hboth
    unfold stepToNextLine at hboth
    split at hboth
    · cases hboth
    · exact isDone_of_walk _ ceiling 0 p hboth

end Player

namespace Execution

variable {x x' : Execution}

/-- A step that fails takes the player to the failure, is counted, and unlocks the source. -/
theorem step_of_error {e : RunFailure} (hstarted : x.started = true)
    (hfails : (x.player.stepToNextLine x.maxMicroSteps).2 = .error e) :
    x.step = ({ x with
      player := (x.player.stepToNextLine x.maxMicroSteps).1
      readOnly := false
      counters := x.counters.countStep.finish }, [], .failed (.ofRun e)) := by
  have hlive := (Player.isDone_of_stepToNextLine hfails).1
  have hstep := x.stepResult
  generalize x.step = r at hstep
  cases hstep with
  | idle hover => exact absurd hover (by simp [hstarted, hlive])
  | failed _ _ hline =>
    rw [hline] at hfails ⊢
    cases hfails
    rfl
  | onward _ _ hline =>
    rw [hline] at hfails
    cases hfails

/-- A start that starts a run finds none started, and tells nothing. -/
theorem start_of_started (h : x.start.2.2 = .ok .started) :
    x.started = false ∧ x.start.1.started = true ∧ x.start.2.1 = [] := by
  unfold start at h ⊢
  by_cases hstarted : x.started = true
  · rw [if_pos hstarted] at h
    cases h
  · by_cases hblank : isBlankText x.source = true
    · rw [if_neg hstarted, if_pos hblank] at h
      cases h
    · rw [if_neg hstarted, if_neg hblank] at h ⊢
      simp only at h ⊢
      generalize x.player.load x.source = loaded at h ⊢
      obtain ⟨p, r⟩ := loaded
      cases r with
      | error e => cases h
      | ok _ => exact ⟨Bool.eq_false_iff.mpr hstarted, rfl, rfl⟩

/-- A run that was started and has nothing more to play. -/
structure Over (x : Execution) : Prop where
  started : x.started = true
  done : x.player.isDone = true

theorem Over.step_eq (h : x.Over) :
    x.step = ({ x with counters := x.counters.finish }, [], .finished) := step_of_isDone h.done

/-- With nothing more to play an operation moves the cursor of the history at most. -/
theorem Over.affected (h : x.Over) (ha : Affected x x') :
    x'.Over ∧ x'.history = { x.history with cursor := x'.history.cursor } := by
  rcases ha.of_started h.started with ⟨source, cursor, rfl⟩ | rfl
  · exact ⟨⟨h.started, h.done⟩, rfl⟩
  · rw [h.step_eq]
    exact ⟨⟨h.started, h.done⟩, rfl⟩

end Execution

namespace Playback

variable {p q r : Playback Execution}

/-- From the first to the second: a step that is taken with nothing more to play completes playback, and
observers are told so; and without such a step neither happens. -/
inductive Finds (taken : Prop) (p q : Playback Execution) : Prop where
  | step (htaken : taken) (hreports : p.Reports q [.completed]) (hcompleted : q.status.completed = true)
  | nothing (htaken : ¬ taken) (hreports : p.Reports q [])
      (hkept : q.status.completed = true → p.status.completed = true)

variable {taken taken' : Prop}

theorem Finds.after (h : Finds taken q r) (h' : p.Reports q [])
    (hkept : q.status.completed = true → p.status.completed = true) : Finds taken p r := by
  cases h with
  | step htaken hreports hcompleted => exact .step htaken (hreports.after h') hcompleted
  | nothing htaken hreports hkept' => exact .nothing htaken (hreports.after h') (hkept ∘ hkept')

theorem Finds.of_iff (h : Finds taken p q) (hiff : taken ↔ taken') : Finds taken' p q :=
  propext hiff ▸ h

/-- A step with nothing more to play tells nothing itself. -/
theorem reports_stepped (h : p.work.Over) :
    p.outcome Execution.workload = .finished ∧ p.Reports (p.stepped Execution.workload) [] := by
  have hstep := h.step_eq
  constructor
  · show p.work.step.2.2 = .finished
    rw [hstep]
  · refine reports_of_events [] ?_
    show (p.log ++ p.work.step.2.1.toArray).toList = _
    rw [hstep]
    simp

/-- With nothing more to play a step completes playback that was not completed. -/
theorem completes_stepped (h : p.work.Over) (hopen : p.status.completed = false) :
    p.Reports (p.stepped Execution.workload).complete [.completed] ∧
    (p.stepped Execution.workload).complete.status.completed = true := by
  have hstill : (p.stepped Execution.workload).status.completed = false :=
    (p.counted_completed _).trans hopen
  have hreports := (p.stepped Execution.workload).reports_complete
  unfold verdict at hreports
  rw [hstill, if_neg Bool.false_ne_true] at hreports
  refine ⟨hreports.after (reports_stepped h).2, ?_⟩
  unfold complete
  rw [hstill, if_neg Bool.false_ne_true]
  rfl

theorem finds_move (hfree : p.gate = .free) (h : p.work.Over) (m : Move) :
    Finds (∃ run, p.LoopBegins (.move m) run) p (p.move Execution.workload m) := by
  rcases p.move_cases (w := Execution.workload) hfree m with
    ⟨hidle, hscene⟩ | ⟨run, q, hbegins, hscene, hlive, hrunning, hmove⟩
  · exact .nothing (fun ⟨run, hbegins⟩ => hidle run hbegins) (reports_of_log_eq hscene.log)
      fun hcompleted => hscene.status ▸ hcompleted
  · have hover : q.work.Over := hscene.work ▸ h
    rw [hmove, goOn_of_running Execution.instant_workload (hscene.gate.trans hfree) hlive hrunning,
      (reports_stepped hover).1]
    obtain ⟨hreports, hcompleted⟩ := completes_stepped hover (Status.isRunning_iff.mp hrunning).2.2
    exact .step ⟨run, hbegins⟩ (hreports.after (reports_of_log_eq hscene.log)) hcompleted

theorem heldUp_frame (p : Playback Execution) :
    p.heldUp.work = p.work ∧ p.heldUp.status.completed = p.status.completed := by
  unfold heldUp
  split <;> exact ⟨rfl, rfl⟩

theorem finds_byHand (h : p.work.Over) :
    Finds (p.status.completed = false) p (p.byHand Execution.workload).1 := by
  obtain ⟨hwork, hkept⟩ := p.heldUp_frame
  have hheld : p.heldUp.work.Over := hwork ▸ h
  unfold byHand
  cases hcompleted : p.status.completed with
  | true => exact .nothing nofun (.refl p) fun _ => hcompleted
  | false =>
    obtain ⟨hreports, hcompletes⟩ := completes_stepped hheld (hkept.trans hcompleted)
    rw [if_neg Bool.false_ne_true, (reports_stepped hheld).1]
    exact .step rfl (hreports.after p.tellsStates_heldUp.reports) hcompletes

end Playback

namespace Session

variable {c : Config} {bounds : DelayBounds} {s v : Session} {op : Operation} {e : RunFailure}

/-! ## The step that fails -/

/-- What observers are told in an operation. Taking notice of it tells nothing. -/
def told (s : Session) (op : Operation) : List Event :=
  (s.perform op).playback.log.toList.drop s.playback.log.size

theorem told_eq {events : List Event}
    (h : (s.perform op).playback.log.toList = s.playback.log.toList ++ events) :
    s.told op = events := by
  rw [told, h, ← Array.length_toList, List.drop_left]

/-- An operation that takes a step of the program, and the session it takes it from. -/
inductive Steps (s : Session) : Operation → Session → Prop where
  /-- The loop of a run takes it. -/
  | loop {m : Move} {run : Nat} (hbegins : s.playback.LoopBegins (.move m) run) : Steps s (.move m) s
  /-- The user goes forward from the end of the history. -/
  | hand (hstarted : s.execution.started = true)
      (hend : s.execution.history.canStepForward = false) : Steps s .forward s
  /-- The user goes forward before a run was started: it is loaded and held up first. -/
  | first (hloaded : s.load.2 = .ok .started) : Steps s .forward ⟨s.load.1.playback.pause⟩

/-- Whether an operation takes a step of the program. Once playback is completed none does. -/
def TakesStep (s : Session) (op : Operation) : Prop :=
  s.playback.status.completed = false ∧ ∃ v, s.Steps op v

/-- What a step that fails makes of a session. -/
structure Halted (before after : Session) : Prop where
  history : after.execution.history = before.execution.history
  tracker : after.execution.tracker = before.execution.tracker
  baseline : after.execution.baseline = before.execution.baseline
  functionCalls : after.execution.counters.functionCalls = before.execution.counters.functionCalls
  maxStackDepth : after.execution.counters.maxStackDepth = before.execution.counters.maxStackDepth
  totalSteps : after.execution.counters.totalSteps = before.execution.counters.totalSteps + 1
  editable : ∀ text, (after.setSource text).2 = .ok ()
  state : after.playback.status.state = .stopped
  not_playing : after.playback.status.playing = false
  not_paused : after.playback.status.paused = false
  not_completed : after.playback.status.completed = false

/-- Playback that stops after a failing step of its work. -/
theorem halted_fail {q : Playback Execution} (hwork : q.work = v.execution)
    (hopen : q.status.completed = false) (hstarted : v.execution.started = true)
    (hfails : (v.execution.player.stepToNextLine v.execution.maxMicroSteps).2 = .error e) :
    Halted v ⟨(q.stepped Execution.workload).fail (.ofRun e)⟩ ∧
    Execution.Over ((q.stepped Execution.workload).fail (.ofRun e)).work ∧
    q.Reports ((q.stepped Execution.workload).fail (.ofRun e)) [.failed (.ofRun e)] := by
  have hstep := Execution.step_of_error hstarted hfails
  rw [← hwork] at hstep
  have hstatus : (q.stepped Execution.workload).status = q.status := by
    refine if_neg ?_
    show q.work.step.2.2 ≠ .more
    rw [hstep]
    nofun
  have hstepped : (q.stepped Execution.workload).work = q.work.step.1 := rfl
  rw [hstep, hwork] at hstepped
  have hsilent : q.Reports (q.stepped Execution.workload) [] := by
    refine Playback.reports_of_events [] ?_
    show (q.log ++ q.work.step.2.1.toArray).toList = _
    rw [hstep]
    simp
  generalize q.stepped Execution.workload = p at hstatus hstepped hsilent
  have hexecution : (⟨p.fail (.ofRun e)⟩ : Session).execution = _ := hstepped
  rw [← hstatus] at hopen
  refine ⟨?_, ?_, (p.reports_fail _).after hsilent⟩
  · exact {
      history := (congrArg Execution.history hexecution :)
      tracker := (congrArg Execution.tracker hexecution :)
      baseline := (congrArg Execution.baseline hexecution :)
      functionCalls := (congrArg (fun x => x.counters.functionCalls) hexecution :)
      maxStackDepth := (congrArg (fun x => x.counters.maxStackDepth) hexecution :)
      totalSteps := (congrArg (fun x => x.counters.totalSteps) hexecution :)
      editable := fun text => by
        unfold Session.setSource Execution.setSource
        rw [hexecution]
        rfl
      state := rfl
      not_playing := rfl
      not_paused := rfl
      not_completed := hopen }
  · show p.work.Over
    rw [hstepped]
    exact ⟨hstarted, (Player.isDone_of_stepToNextLine hfails).2⟩

/-- A step by hand that fails. -/
theorem stepProgram_of_error (ht : s.playback.Tidy) (hopen : s.playback.status.completed = false)
    (hstarted : s.execution.started = true)
    (hfails : (s.execution.player.stepToNextLine s.execution.maxMicroSteps).2 = .error e) :
    s.stepProgram = (⟨(s.playback.ticketed.heldUp.stepped Execution.workload).fail (.ofRun e)⟩,
      .error (.ofRun e)) := by
  have hwork : s.playback.ticketed.heldUp.work = s.execution := s.playback.ticketed.heldUp_frame.1
  have houtcome : s.playback.ticketed.heldUp.outcome Execution.workload = .failed (.ofRun e) := by
    show s.playback.ticketed.heldUp.work.step.2.2 = _
    rw [hwork, Execution.step_of_error hstarted hfails]
  have hbyHand : s.playback.ticketed.byHand Execution.workload
      = ((s.playback.ticketed.heldUp.stepped Execution.workload).fail (.ofRun e),
        .error (.ofRun e)) := by
    have hopen' : s.playback.ticketed.status.completed = false := hopen
    unfold Playback.byHand
    rw [hopen', if_neg Bool.false_ne_true, houtcome]
  unfold stepProgram
  rw [Playback.stepForward_of_instant Execution.instant_workload ht.free ht.answered, hbyHand]
  rfl

/-- A step by hand is one of playback that is held up. -/
theorem ticketed_heldUp_frame (s : Session) :
    s.playback.ticketed.heldUp.work = s.execution ∧
    s.playback.ticketed.heldUp.status.completed = s.playback.status.completed ∧
    s.playback.Reports s.playback.ticketed.heldUp [] := by
  obtain ⟨hwork, hcompleted⟩ := s.playback.ticketed.heldUp_frame
  have hheld := s.playback.ticketed.tellsStates_heldUp.reports
  exact ⟨hwork, hcompleted, hheld.after (Playback.reports_of_log_eq rfl)⟩

/-- A failing step that an operation takes: it is one of playback that is not completed, and playback stops
after it. Whoever goes forward is answered with the failure. -/
structure Fails (s : Session) (op : Operation) (v : Session) (e : RunFailure) : Prop where
  started : v.execution.started = true
  answer : op = .forward → s.forward.2 = .error (.ofRun e)
  stops : ∃ q : Playback Execution, s.perform op = ⟨(q.stepped Execution.workload).fail (.ofRun e)⟩
    ∧ q.work = v.execution ∧ q.status.completed = false ∧ s.playback.Reports q []

/-- The user goes forward by a step of playback that is held up. -/
theorem fails_byHand (hopen : v.playback.status.completed = false)
    (hstarted : v.execution.started = true) (hbefore : s.playback.Reports v.playback [])
    (hforward : s.forward = (⟨(v.playback.ticketed.heldUp.stepped Execution.workload).fail
      (.ofRun e)⟩, .error (.ofRun e))) : s.Fails .forward v e := by
  obtain ⟨hwork, hcompleted, hreports⟩ := v.ticketed_heldUp_frame
  exact ⟨hstarted, fun _ => congrArg Prod.snd hforward, v.playback.ticketed.heldUp,
    congrArg Prod.fst hforward, hwork, hcompleted.trans hopen, hreports.after hbefore⟩

theorem fails_of_loop (hfree : s.playback.gate = .free)
    (hstate : IsIdle c s ∨ ∃ t captured, IsPlaying c t s captured) {m : Move} {run : Nat}
    (hbegins : s.playback.LoopBegins (.move m) run)
    (hfails : (s.execution.player.stepToNextLine s.execution.maxMicroSteps).2 = .error e) :
    s.Fails (.move m) s e := by
  rcases s.playback.move_cases (w := Execution.workload) hfree m with
    ⟨hidle, -⟩ | ⟨run', q, -, hscene, hlive, hrunning, hmove⟩
  · exact absurd hbegins (hidle run)
  have hstarted : s.execution.started = true := by
    rcases hstate with hidle | ⟨t, captured, hplaying⟩
    · exact absurd hbegins.live.2 (Status.not_isRunning_of_off hidle.off)
    · exact hplaying.playing.started
  have houtcome : q.outcome Execution.workload = .failed (.ofRun e) := by
    have hstep : s.execution.step = _ := Execution.step_of_error hstarted hfails
    show q.work.step.2.2 = _
    rw [hscene.work]
    exact congrArg (fun stepped => stepped.2.2) hstep
  refine ⟨hstarted, nofun, q, ?_, hscene.work, (Status.isRunning_iff.mp hrunning).2.2,
    Playback.reports_of_log_eq hscene.log⟩
  show (⟨s.playback.move Execution.workload _⟩ : Session) = _
  rw [hmove, Playback.goOn_of_running Execution.instant_workload (hscene.gate.trans hfree) hlive hrunning,
    houtcome]

theorem fails_of_hand (ht : s.playback.Tidy)
    (hstate : IsIdle c s ∨ ∃ t captured, IsPlaying c t s captured)
    (hstarted : s.execution.started = true) (hend : s.execution.history.canStepForward = false)
    (hfails : (s.execution.player.stepToNextLine s.execution.maxMicroSteps).2 = .error e) :
    s.Fails .forward s e := by
  have hopen : s.playback.status.completed = false := by
    rcases hstate with hidle | ⟨t, captured, hplaying⟩
    · exact hidle.not_completed
    · -- a completed session has nothing more to play
      refine Bool.eq_false_iff.mpr fun hcompleted => ?_
      have hlive := (Player.isDone_of_stepToNextLine hfails).1
      exact Bool.false_ne_true (hlive.symm.trans (hplaying.done_of_completed hcompleted))
  refine fails_byHand hopen hstarted (.refl _) ?_
  unfold Session.forward
  rw [if_pos hstarted, hend, if_neg Bool.false_ne_true,
    stepProgram_of_error ht hopen hstarted hfails]

/-- The run is loaded and held up, and then its first step is taken. -/
theorem fails_of_first (ht : s.playback.Tidy)
    (hstate : IsIdle c s ∨ ∃ t captured, IsPlaying c t s captured)
    (hloaded : s.load.2 = .ok .started) (hv : ⟨s.load.1.playback.pause⟩ = v)
    (hfails : (v.execution.player.stepToNextLine v.execution.maxMicroSteps).2 = .error e) :
    s.Fails .forward v e := by
  obtain ⟨hunstarted, hstarted, hquiet⟩ := Execution.start_of_started hloaded
  have hopen : s.playback.status.completed = false := by
    rcases hstate with hidle | ⟨t, captured, hplaying⟩
    · exact hidle.not_completed
    · exact nomatch hunstarted.symm.trans hplaying.playing.started
  have hsame : s.playback.SameLoops v.playback := by
    rw [← hv]
    exact s.sameLoops_load.trans s.load.1.playback.sameLoops_pause
  have hbefore : s.playback.Reports v.playback [] := by
    have hload : s.playback.Reports s.load.1.playback [] :=
      Playback.reports_of_events [] (hquiet ▸ s.log_load)
    rw [← hv]
    exact s.load.1.playback.tellsStates_pause.reports.after hload
  have hopen' : v.playback.status.completed = false := by
    rw [← hv]
    exact hopen
  have hstarted' : v.execution.started = true := by
    rw [← hv]
    exact hstarted
  refine fails_byHand hopen' hstarted' hbefore ?_
  have hload : s.load = (s.load.1, .ok .started) := Prod.ext rfl hloaded
  unfold Session.forward
  rw [hunstarted, if_neg Bool.false_ne_true, hload]
  simp only
  rw [hv, stepProgram_of_error (ht.of_same hsame) hopen' hstarted' hfails]

theorem Steps.fails (hsteps : s.Steps op v) (ht : s.playback.Tidy)
    (hstate : IsIdle c s ∨ ∃ t captured, IsPlaying c t s captured)
    (hfails : (v.execution.player.stepToNextLine v.execution.maxMicroSteps).2 = .error e) :
    s.Fails op v e := by
  cases hsteps with
  | loop hbegins => exact fails_of_loop ht.free hstate hbegins hfails
  | hand hstarted hend => exact fails_of_hand ht hstate hstarted hend hfails
  | first hloaded => exact fails_of_first ht hstate hloaded rfl hfails

/-! ## After the failure -/

/-- Snapshots that are shown are no results. -/
theorem reports_shown (s : Session) (x : Execution) (shown : List Snapshot) :
    s.playback.Reports ((s.withExecution x).notify (shown.map .snapshot)).playback [] := by
  have htold : ((s.withExecution x).notify (shown.map .snapshot)).playback.log.toList
      = s.playback.log.toList ++ shown.map .snapshot := by
    unfold notify withExecution
    simp
  have hnone : (shown.map Event.snapshot).filter Event.isResult = [] := by
    simp [Event.isResult]
  exact hnone ▸ Playback.reports_of_events _ htold

/-- With nothing more to play an operation that takes a step completes playback, and no other does. -/
theorem finds_perform (ht : s.playback.Tidy) (h : s.execution.Over) (hop : op ≠ .reset)
    (hdrain : op ≠ .drain) :
    Playback.Finds (s.TakesStep op) s.playback (s.perform op).playback := by
  have hquiet : op ≠ .forward → (∀ m, op ≠ .move m) → ¬ s.TakesStep op := by
    rintro hforward hmove ⟨-, v, hsteps⟩
    cases hsteps with
    | loop => exact hmove _ rfl
    | hand | first => exact hforward rfl
  cases op with
  | reset => exact absurd rfl hop
  | drain => exact absurd rfl hdrain
  | setSource text =>
    show Playback.Finds _ s.playback (s.setSource text).1.playback
    rcases s.setSource_fst text with hlocked | hchanged
    · rw [hlocked]
      exact .nothing (hquiet nofun nofun) (.refl _) id
    · rw [hchanged]
      exact .nothing (hquiet nofun nofun) (Playback.reports_of_log_eq rfl) id
  | start =>
    show Playback.Finds _ s.playback s.start.1.playback
    rw [start_again h.started]
    exact .nothing (hquiet nofun nofun) (s.reports_shown s.execution []) id
  | toggle =>
    show Playback.Finds _ s.playback s.toggle.1.playback
    rw [toggle_again h.started]
    exact .nothing (hquiet nofun nofun) s.playback.tellsStates_toggle.reports
      s.playback.still_toggle.completed
  | forward =>
    have hsteps : s.TakesStep .forward ↔
        s.playback.status.completed = false ∧ s.execution.history.canStepForward = false := by
      refine ⟨fun ⟨hopen, v, hv⟩ => ⟨hopen, ?_⟩, fun ⟨hopen, hend⟩ => ⟨hopen, s, .hand h.started hend⟩⟩
      cases hv with
      | hand _ hend => exact hend
      | first hload => exact nomatch h.started.symm.trans (Execution.start_of_started hload).1
    show Playback.Finds _ s.playback s.forward.1.playback
    unfold Session.forward
    rw [if_pos h.started]
    cases hcan : s.execution.history.canStepForward with
    | true =>
      -- a replay from the history
      exact .nothing (fun htakes => nomatch (hsteps.mp htakes).2.symm.trans hcan)
        (s.reports_shown _ _) id
    | false =>
      rw [if_neg Bool.false_ne_true]
      have hfound : Playback.Finds (s.TakesStep .forward) s.playback s.stepProgram.1.playback := by
        unfold stepProgram
        rw [Playback.stepForward_of_instant Execution.instant_workload ht.free ht.answered]
        have hfound := Playback.finds_byHand (p := s.playback.ticketed) h
        refine (hfound.after (p := s.playback) (Playback.reports_of_log_eq rfl) id).of_iff ?_
        rw [hsteps]
        exact ⟨fun hopen => ⟨hopen, hcan⟩, And.left⟩
      generalize s.stepProgram = stepped at hfound
      obtain ⟨s', outcome⟩ := stepped
      cases outcome <;> exact hfound
  | back =>
    show Playback.Finds _ s.playback s.back.1.playback
    unfold Session.back
    split
    · exact .nothing (hquiet nofun nofun) (.refl _) id
    · rename_i history shown _
      have hshown := s.reports_shown { s.execution with history := history } [shown]
      exact .nothing (hquiet nofun nofun) ((Playback.tellsStates_resumeFromCompleted _).reports.after hshown)
        (Playback.still_resumeFromCompleted _).completed
  | pause => exact .nothing (hquiet nofun nofun) s.playback.tellsStates_pause.reports id
  | setSpeed | setTurbo | attend | elapseTo =>
    exact .nothing (hquiet nofun nofun) (Playback.reports_of_log_eq rfl) id
  | move m =>
    refine (s.playback.finds_move ht.free h m).of_iff ⟨fun ⟨run, hbegins⟩ => ?_, ?_⟩
    · exact ⟨(Status.isRunning_iff.mp hbegins.live.2).2.2, s, .loop hbegins⟩
    · rintro ⟨-, v, ⟨hbegins⟩⟩
      exact ⟨_, hbegins⟩

/-- The results that are told of with nothing more to play: that there is none, if a step is taken. -/
theorem mem_told_of_result (ht : s.playback.Tidy) (h : s.execution.Over) (hop : op ≠ .reset)
    {r : Event} (hr : r.isResult = true) :
    r ∈ s.told op ↔ r = .completed ∧ s.TakesStep op := by
  have hresult : r ∈ s.told op ↔ r ∈ (s.told op).filter Event.isResult := by
    rw [List.mem_filter, hr]
    exact ⟨fun hmem => ⟨hmem, rfl⟩, And.left⟩
  by_cases hdrain : op = .drain
  · subst hdrain
    refine ⟨fun hmem => ?_, fun ⟨_, _, v, hv⟩ => nomatch hv⟩
    exact absurd (List.mem_of_mem_drop hmem) List.not_mem_nil
  · rw [hresult, told]
    cases finds_perform ht h hop hdrain with
    | step htaken hreports _ =>
      rw [hreports.filter_drop, List.mem_singleton]
      exact ⟨fun he => ⟨he, htaken⟩, And.left⟩
    | nothing htaken hreports _ =>
      rw [hreports.filter_drop]
      exact ⟨nofun, fun hboth => absurd hboth.2 htaken⟩

theorem failed_not_mem_told (ht : s.playback.Tidy) (h : s.execution.Over) (hop : op ≠ .reset)
    (f : SessionFailure) : .failed f ∉ s.told op :=
  fun hmem => nomatch ((mem_told_of_result ht h hop rfl).mp hmem).1

/-- The induction is on the operations; that there is nothing more to play is kept by each. -/
theorem Configured.over_run (hconf : Configured c bounds s) (h : s.execution.Over)
    {later : List Operation} (hlater : .reset ∉ later) :
    (s.run later).execution.Over ∧ (s.run later).execution.history
      = { s.execution.history with cursor := (s.run later).execution.history.cursor } := by
  induction later generalizing s with
  | nil => exact ⟨h, rfl⟩
  | cons op later ih =>
    rw [List.mem_cons, not_or] at hlater
    have hop : op ≠ .reset := fun he => hlater.1 he.symm
    obtain ⟨hover, hhistory⟩ := h.affected (perform_affected hconf.tidy.free hop)
    obtain ⟨hover', hhistory'⟩ := ih (hconf.perform op) hover hlater.2
    refine ⟨hover', ?_⟩
    show ((s.perform op).run later).execution.history = _
    rw [hhistory', hhistory]
    rfl

/-- Going back shows the snapshot before the current one, if one is retained. -/
theorem back_of_cursor {i : Nat} {shown : Snapshot} (hcursor : s.execution.history.cursor = some (i + 1))
    (hshown : s.execution.history.retained[i]? = some shown) :
    s.back.2 = some shown ∧ s.back.1.execution.history.cursor = some i := by
  have hback := History.stepBack_of_cursor hcursor
  rw [hshown] at hback
  unfold Session.back
  rw [hback]
  have hwork : ∀ p : Playback Execution, p.resumeFromCompleted.1.work = p.work :=
    fun p => p.still_resumeFromCompleted.work_eq
  exact ⟨rfl, congrArg (fun x : Execution => x.history.cursor) (hwork _)⟩

/-- Going forward shows the snapshot after the current one, if one is retained. -/
theorem forward_of_cursor {i : Nat} {shown : Snapshot} (hstarted : s.execution.started = true)
    (hcursor : s.execution.history.cursor = some i)
    (hshown : s.execution.history.retained[i + 1]? = some shown) :
    s.forward.2 = .ok (some shown) ∧ s.forward.1.execution.history.cursor = some (i + 1) := by
  have hlt : i + 1 < s.execution.history.size := (Array.getElem?_eq_some_iff.mp hshown).choose
  have hforward := History.stepForward_of_cursor hcursor hlt
  rw [hshown] at hforward
  unfold Session.forward
  rw [if_pos hstarted, if_pos (History.canStepForward_iff.mpr ⟨i, hcursor, hlt⟩), hforward]
  exact ⟨rfl, rfl⟩

end Session

open Session in
/-- Take any session with a valid configuration, after any operations, and an operation that takes a step
of the program which fails: the loop of a run takes it, or the user who goes forward. The step is
counted and unlocks the source, playback stops, the one result that observers are told is the failure,
and whoever went forward is answered with it; the history with its cursor, the call tree and what else
was gathered are as they were before the step. Afterwards, until a reset, nothing is captured any more
and no operation tells of a failure, and the user can go back and forth in what the history retains. -/
theorem failed_step_keeps_session {c : Config} {s v : Session} {op : Operation} {e : RunFailure}
    (hnew : new? c = .ok s) (before : List Operation) (hsteps : (s.run before).Steps op v)
    (hfails : (v.execution.player.stepToNextLine v.execution.maxMicroSteps).2 = .error e) :
    let u := s.run before
    let history := v.execution.history
    (Halted v (u.perform op) ∧ (u.told op).filter Event.isResult = [.failed (.ofRun e)]
      ∧ (op = .forward → u.forward.2 = .error (.ofRun e))) ∧
    ∀ later, .reset ∉ later →
      let z := (u.perform op).run later
      z.execution.history = { history with cursor := z.execution.history.cursor } ∧
      (∀ next, next ≠ .reset → ∀ f, .failed f ∉ z.told next) ∧
      (∀ (i : Nat) (shown : Snapshot), history.retained[i]? = some shown →
        (z.execution.history.cursor = some (i + 1) →
          z.back.2 = some shown ∧ z.back.1.execution.history.cursor = some i) ∧
        (∀ j, j + 1 = i → z.execution.history.cursor = some j →
          z.forward.2 = .ok (some shown) ∧ z.forward.1.execution.history.cursor = some i)) := by
  intro u history
  obtain ⟨bounds, rfl⟩ := eq_of_new? hnew
  obtain ⟨hidle, hc⟩ := isIdle_of_new? hnew
  have hconf : Configured c bounds u := (configured_new c bounds).run before
  obtain ⟨hstarted, hanswer, q, hperform, hwork, hopen, hreports⟩ :=
    hsteps.fails hconf.tidy (idle_or_playing hc (Or.inl hidle) before) hfails
  obtain ⟨hhalted, hover, htold⟩ := halted_fail hwork hopen hstarted hfails
  refine ⟨⟨hperform ▸ hhalted, ?_, hanswer⟩, fun later hlater => ?_⟩
  · rw [told, hperform]
    exact (htold.after hreports).filter_drop
  · intro z
    have hconf' : Configured c bounds (u.perform op) := hconf.perform op
    have hover' : (u.perform op).execution.Over := by
      rw [hperform]
      exact hover
    obtain ⟨hover'', hkept⟩ := hconf'.over_run hover' hlater
    have hsame : (u.perform op).execution.history = history := by
      rw [hperform]
      exact hhalted.history
    rw [hsame] at hkept
    have hretained : z.execution.history.retained = history.retained :=
      (congrArg History.retained hkept :)
    refine ⟨hkept, fun next hnext => ?_, fun i shown hshown => ⟨fun hcursor => ?_, ?_⟩⟩
    · exact failed_not_mem_told (hconf'.run later).tidy hover'' hnext
    · rw [← hretained] at hshown
      exact back_of_cursor hcursor hshown
    · rintro j rfl hcursor
      rw [← hretained] at hshown
      exact forward_of_cursor hover''.started hcursor hshown

/-- A document of a trace that fails on its fourth line. -/
def Trace.brokenText : String := "[[[1],[2],[3],[4,0,\"\",[],[],\"boom\"]]]"

open Session in
/-- The loop captures the second line and the user the third. The next step fails; then the user goes back
and forth. -/
theorem session_after_boom :
    let u := Session.standard.run
      [.setSource Trace.brokenText, .start, .move (.begin 1), .forward]
    let z := u.forward.1.back.1
    new? .standard = .ok .standard ∧ u.Steps .forward u
    ∧ (u.execution.player.stepToNextLine u.execution.maxMicroSteps).2 = .error (.runtime "boom")
    ∧ u.forward.2 = .error (.runtime "boom")
    ∧ u.execution.history.retained.size = 2 ∧ z.execution.history.cursor = some 0
    ∧ z.forward.2 = .ok u.execution.history.retained[1]? := by
  intro u z
  have hnew : new? .standard = .ok .standard := by rfl
  have hsteps : u.Steps .forward u := .hand (by decide +kernel) (by decide +kernel)
  have hfails : (u.execution.player.stepToNextLine u.execution.maxMicroSteps).2
      = .error (.runtime "boom") := by decide +kernel
  have hsize : u.execution.history.retained.size = 2 := by decide +kernel
  have hcursor : z.execution.history.cursor = some 0 := by decide +kernel
  obtain ⟨⟨-, -, hanswer⟩, hlater⟩ := failed_step_keeps_session hnew
    [.setSource Trace.brokenText, .start, .move (.begin 1), .forward] hsteps hfails
  obtain ⟨-, -, hnavigates⟩ := hlater [.back] (by simp)
  have hshown : u.execution.history.retained[1]? = some u.execution.history.retained[1] :=
    Array.getElem?_eq_getElem (by omega)
  refine ⟨hnew, hsteps, hfails, hanswer rfl, hsize, hcursor, ?_⟩
  rw [hshown]
  exact ((hnavigates 1 _ hshown).2 0 rfl hcursor).1

end Retrace
