import Retrace.Proofs.Playback.SoleLoop
import Retrace.Proofs.Session.Operation
import Retrace.Proofs.Trace.Ending
/-!
# Playback left to itself comes to an end

Once a run is started and nobody interferes, its loop takes one step after the other as long as there is
more to do. The delays between the steps do not matter for what that comes to: it is what the execution
comes to by its steps alone (`Execution.PlaysOut`, `SoleLoop.advance_playsOut`).

A trace ends in one way, and there are no more steps to it than entries. So the moves for which a session
has patience are enough (`await_playsOut`), and a trace in which no small step fails is played to its end
(`IsPlaying.await_completes`).
-/

namespace Retrace

/-- The results that a step tells of when it counts. -/
def StepOutcome.results : StepOutcome → List Event
  | more => []
  | finished => [.completed]
  | failed e => [.failed e]

/-- What comes of the step with which a play ends. -/
def Ending.outcome : Ending → StepOutcome
  | normal => .finished
  | failed e => .failed (.ofRun e)

namespace Execution

variable {x y : Execution} {n : Nat} {outcome : StepOutcome}

/-- Steps are taken as long as there is more to do. So many are taken, and this comes of the last one. -/
inductive PlaysOut : Nat → Execution → Execution → StepOutcome → Prop where
  | last {x : Execution} (hlast : x.step.2.2 ≠ .more) : PlaysOut 1 x x.step.1 x.step.2.2
  | more {n : Nat} {x y : Execution} {outcome : StepOutcome} (hmore : x.step.2.2 = .more)
      (rest : PlaysOut n x.step.1 y outcome) : PlaysOut (n + 1) x y outcome

/-- What a step keeps is kept to the end. -/
theorem PlaysOut.keeps {I : Execution → Prop} (hstep : ∀ x, I x → I x.step.1)
    (h : PlaysOut n x y outcome) (hx : I x) : I y := by
  induction h with
  | last => exact hstep _ hx
  | more _ _ ih => exact ih (hstep _ hx)

/-- A step tells of no result itself. -/
theorem results_step (x : Execution) : x.step.2.1.filter Event.isResult = [] := by
  have hcapture : ∀ x : Execution, x.capture.2.filter Event.isResult = [] := by
    intro x
    cases hposition : x.player.probe.position with
    | none =>
      rw [capture_of_no_position hposition]
      rfl
    | some position =>
      rw [events_capture hposition]
      simp [Snapshot.announced, Event.isResult]
  have hstep := x.stepResult
  generalize x.step = r at hstep
  cases hstep with
  | idle => rfl
  | failed => rfl
  | onward => exact hcapture _

/-- What comes of a step is what came of going on to the next line. -/
theorem outcome_step (hstarted : x.started = true) (hlive : x.player.isDone = false) :
    x.step.2.2 = match (x.player.stepToNextLine x.maxMicroSteps).2 with
      | .error e => .failed (.ofRun e)
      | .ok line => if line.hasMore then .more else .finished := by
  have hstep := x.stepResult
  generalize x.step = r at hstep
  cases hstep with
  | idle hover => exact absurd hover (by simp [hstarted, hlive])
  | failed _ _ hline | onward _ _ hline => rw [hline]

section EndsAt

variable {c : Config} {t : Trace} {i : Nat} {ending : Ending}

/-- From an entry up to the one where the trace ends, the steps are no more than the entries left. The
induction is on these. -/
theorem exists_playsOut (hc : 0 < c.maxMicroSteps) (hends : t.EndsAt c.player i ending)
    (hi : i < t.entries.size) :
    ∀ (left : Nat) {x : Execution} {q : Nat}, x.started = true → x.maxMicroSteps = c.maxMicroSteps →
      x.player = Player.standing c.player t q → q + left = i →
      ∃ n y, n ≤ left + 1 ∧ PlaysOut n x y ending.outcome ∧ y.player.isDone = true := by
  intro left
  induction left using Nat.strong_induction_on with
  | _ left ih =>
    intro x q hstarted hceiling hplayer hleft
    have hlive : x.player.isDone = false := by
      rw [hplayer]
      rfl
    have houtcome := outcome_step hstarted hlive
    have hnext := (step_of_live hstarted hlive).1
    rw [hplayer, hceiling] at houtcome hnext
    rcases Player.stepToNextLine_of_endsAt hends hi (Nat.le.intro hleft) hc with
      ⟨q', r, hline, ⟨line, rfl, hmore⟩, hlt, hle⟩ | ⟨r, hline, htells⟩
    · -- a step with more to do comes to a later entry
      rw [hline] at houtcome hnext
      simp only [hmore, if_true] at houtcome
      obtain ⟨-, hceiling', hstarted'⟩ := x.step_frame
      obtain ⟨n, y, hn, hplays, hdone⟩ := ih (i - q') (by omega) (hstarted'.trans hstarted)
        (hceiling'.trans hceiling) hnext (by omega)
      exact ⟨n + 1, y, by omega, .more houtcome hplays, hdone⟩
    · rw [hline] at houtcome hnext
      have hlast : x.step.2.2 = ending.outcome := by
        rw [houtcome]
        cases ending with
        | normal =>
          obtain ⟨line, rfl, hmore⟩ := htells
          simp only [hmore, Bool.false_eq_true, if_false]
          rfl
        | failed e =>
          obtain rfl : r = .error e := htells
          rfl
      refine ⟨1, x.step.1, by omega, hlast ▸ .last ?_, ?_⟩
      · rw [hlast]
        cases ending <;> nofun
      · rw [hnext]
        exact Player.isDone_ended _ _ _ _

/-- Entries that are reached lie before the end of the trace. -/
theorem le_of_reaches (hends : t.EndsAt c.player i ending) {q : Nat} (hq : q < t.entries.size)
    (hreach : t.reaches c.player q = true) : q ≤ i := by
  by_contra hlt
  have hfine := Trace.reaches_iff.mp hreach i (by omega)
  have hlast := (hends.normal_of_no_failure hfine).2
  omega

/-- An execution that plays a trace is played out in no more steps than there are entries. Only where a
small step fails does it come to anything but the end of the trace. -/
theorem Playing.exists_playsOut {captured : List Snapshot} (hc : 0 < c.maxMicroSteps)
    (hpos : 0 < t.entries.size) (h : Playing c t x captured) :
    ∃ n y outcome, n ≤ t.entries.size ∧ PlaysOut n x y outcome ∧
      ((∀ q, q < t.entries.size → t.failure? c.player q = none) → outcome = .finished) := by
  obtain ⟨stops, hprogress, -⟩ := h.progress
  generalize hplayer : x.player = p at hprogress
  cases hprogress with
  | exhausted _ _ _ hdone =>
    -- there is nothing more to do
    rw [← hplayer] at hdone
    have hstep := step_of_isDone hdone
    have hfinished : x.step.2.2 = .finished := by rw [hstep]
    refine ⟨1, _, _, by omega, .last ?_, fun _ => hfinished⟩
    rw [hfinished]
    nofun
  | underWay q _ hlt hreach _ =>
    obtain ⟨i, ending, hends, hi⟩ := Trace.exists_endsAt c.player hpos
    have hle := le_of_reaches hends hlt hreach
    obtain ⟨n, y, hn, hplays, -⟩ := Execution.exists_playsOut hc hends hi (i - q) h.started h.ceiling
      hplayer (by omega)
    refine ⟨n, y, _, by omega, hplays, fun hfine => ?_⟩
    rw [(hends.normal_of_no_failure (hfine i hi)).1]
    rfl

end EndsAt

end Execution

namespace Playback

open Execution (PlaysOut)

/-- A loop that is to take a step finds that nobody knows yet whether there is more to do. -/
theorem SoleLoop.verdict {p : Playback Execution} (h : p.SoleLoop) (outcome : StepOutcome) :
    p.verdict outcome = outcome.results := by
  cases outcome with
  | more | failed => rfl
  | finished =>
    unfold Playback.verdict
    rw [(Status.isRunning_iff.mp h.running).2.2]
    rfl

/-- The only loop comes to its next step within two moves, and tells of its result alone. -/
theorem SoleLoop.exists_step {p : Playback Execution} (h : p.SoleLoop) :
    ∃ k p', k ≤ 2 ∧ Round p (Execution.workload p.status.currentStep p.work) p' ∧
      p.Reports p' p.work.step.2.2.results ∧
      ∀ fuel, p.advance Execution.workload (fun q => !q.hasLoop p.run) none (fuel + k)
        = p'.advance Execution.workload (fun q => !q.hasLoop p.run) none fuel := by
  obtain ⟨k, p', hk, hround, hadvance⟩ := h.exists_round Execution.instant_workload
  refine ⟨k, p', hk, hround, ?_, hadvance⟩
  have hquiet : (Execution.workload p.status.currentStep p.work).events.filter Event.isResult = [] :=
    p.work.results_step
  have hreports := hround.reports
  rw [hquiet, List.nil_append, h.verdict] at hreports
  exact hreports

/-- The only loop takes the steps of its work one after the other, as long as there is more to do, and tells
of the result. The induction is on the steps, and each takes two moves at most. -/
theorem advance_playsOut {n : Nat} {x y : Execution} {outcome : StepOutcome}
    (h : PlaysOut n x y outcome) : ∀ {p : Playback Execution} {fuel : Nat}, p.SoleLoop → p.work = x →
      2 * n ≤ fuel →
      let q := p.advance Execution.workload (fun q => !q.hasLoop p.run) none fuel
      q.work = y ∧ q.hasLoop p.run = false ∧ (outcome = .finished → q.status.completed = true) ∧
        p.Reports q outcome.results := by
  induction h with
  | last hlast =>
    rintro p fuel hsole rfl hfuel
    obtain ⟨k, p', hk, hround, hreports, hadvance⟩ := hsole.exists_step
    obtain ⟨fuel, rfl⟩ : ∃ rest, fuel = rest + k := ⟨fuel - k, by omega⟩
    have hended : p'.hasLoop p.run = false := hround.ends hlast
    rw [hadvance, advance_of_holds (by rw [hended]; rfl)]
    exact ⟨hround.work_eq, hended, hround.completes, hreports⟩
  | more hmore rest ih =>
    rintro p fuel hsole rfl hfuel
    obtain ⟨k, p', hk, hround, hreports, hadvance⟩ := hsole.exists_step
    obtain ⟨fuel, rfl⟩ : ∃ rest, fuel = rest + k := ⟨fuel - k, by omega⟩
    rw [hadvance, ← hround.run_eq]
    obtain ⟨hwork, hended, hcompletes, hreports'⟩ :=
      @ih _ fuel (hround.goes_on hmore) hround.work_eq (by omega)
    rw [hmore] at hreports
    exact ⟨hwork, hended, hcompletes, hreports'.after hreports⟩

end Playback

namespace Session

variable {c : Config} {t : Trace} {s : Session}

/-- A session has patience for four moves an entry, and two are enough. -/
theorem two_mul_le_patience {n : Nat} (hn : n ≤ s.execution.player.length) : 2 * n ≤ s.patience 0 := by
  unfold patience
  omega

/-- Whoever waits for the only loop of a session finds what its execution comes to, and the result told. -/
theorem await_playsOut (hsole : s.playback.SoleLoop)
    (hawait : s.playback.awaitable = some s.playback.run) {n : Nat} {y : Execution}
    {outcome : StepOutcome} (h : Execution.PlaysOut n s.execution y outcome)
    (hn : n ≤ s.execution.player.length) :
    let z := s.await none
    z.2 = true ∧ z.1.execution = y ∧ (outcome = .finished → z.1.playback.status.completed = true) ∧
      s.playback.Reports z.1.playback outcome.results := by
  have hsole' : ({ s.playback with awaitable := none } : Playback Execution).SoleLoop :=
    ⟨hsole.free, hsole.live, hsole.running, hsole.waits⟩
  obtain ⟨hwork, hended, hcompletes, hreports⟩ :=
    Playback.advance_playsOut h hsole' rfl (two_mul_le_patience hn)
  unfold Session.await Playback.await
  rw [hawait]
  exact ⟨congrArg Bool.not hended, hwork, hcompletes, hreports.after (Playback.reports_of_log_eq rfl)⟩

theorem IsPlaying.player_length {captured : List Snapshot} (h : IsPlaying c t s captured) :
    s.execution.player.length = t.entries.size := by
  obtain ⟨stops, hprogress, -⟩ := h.playing.progress
  unfold Player.length
  rw [hprogress.trace_eq]
  rfl

/-- Whoever waits for the only loop of a session that plays a trace without failures waits until the
session is complete. -/
theorem IsPlaying.await_completes {captured : List Snapshot} (hc : 0 < c.maxMicroSteps)
    (hfine : ∀ q, q < t.entries.size → t.failure? c.player q = none) (hpos : 0 < t.entries.size)
    (h : IsPlaying c t s captured) (hsole : s.playback.SoleLoop)
    (hawait : s.playback.awaitable = some s.playback.run) :
    (s.await none).2 = true ∧ (s.await none).1.playback.status.completed = true := by
  obtain ⟨n, y, outcome, hn, hplays, hfinished⟩ := h.playing.exists_playsOut hc hpos
  obtain ⟨hended, -, hcompletes, -⟩ := await_playsOut hsole hawait hplays (h.player_length ▸ hn)
  exact ⟨hended, hcompletes (hfinished hfine)⟩

/-- A run that is started while there are no loops has the only loop. -/
theorem IsIdle.soleLoop_start (h : IsIdle c s) (hread : Trace.read s.source = .ok t)
    (hfresh : s.playback.fresh = []) (hsleeping : s.playback.sleeping = []) :
    s.start.1.playback.SoleLoop
    ∧ s.start.1.playback.awaitable = some s.start.1.playback.run := by
  have hopen : s.load.1.playback.status.completed = false := h.not_completed
  have hfree : s.load.1.playback.gate = .free := h.free
  have hfresh : s.load.1.playback.fresh = [] := hfresh
  have hsleeping : s.load.1.playback.sleeping = [] := hsleeping
  rw [h.start_of_read hread]
  unfold Playback.play
  rw [hopen, if_neg Bool.false_ne_true]
  refine ⟨⟨hfree, rfl, ?_, Or.inl ⟨?_, hsleeping⟩⟩, rfl⟩
  · show (true && !false && !s.load.1.playback.status.completed) = true
    rw [hopen]
    rfl
  · show s.load.1.playback.fresh ++ [_] = [_]
    rw [hfresh]
    rfl

/-- A trace that a new session loads and starts has the only loop to play it. -/
theorem soleLoop_of_new {source : String} (hnew : new? c = .ok s) (hread : Trace.read source = .ok t) :
    let set := (s.setSource source).1
    IsIdle c set ∧ Trace.read set.source = .ok t ∧ set.start.1.playback.SoleLoop
    ∧ set.start.1.playback.awaitable = some set.start.1.playback.run := by
  intro set
  obtain ⟨hidle, -⟩ := isIdle_of_new? hnew
  obtain ⟨bounds, hs⟩ := eq_of_new? hnew
  have hset := hidle.setSource source
  have hread' : Trace.read set.source = .ok t := by
    show Trace.read (s.setSource source).1.source = .ok t
    rw [hs]
    exact hread
  have hwaiting : set.playback.fresh = [] ∧ set.playback.sleeping = [] := by
    show (s.setSource source).1.playback.fresh = [] ∧ (s.setSource source).1.playback.sleeping = []
    rw [hs]
    exact ⟨rfl, rfl⟩
  exact ⟨hset, hread', hset.soleLoop_start hread' hwaiting.1 hwaiting.2⟩

/-- A trace without failures that a new session loads and starts plays to its end by itself. -/
theorem completes_alone {source : String} (hnew : new? c = .ok s) (hread : Trace.read source = .ok t)
    (hfine : ∀ q, q < t.entries.size → t.failure? c.player q = none) :
    let started := (s.setSource source).1.start.1
    (∃ captured, IsPlaying c t started captured)
    ∧ (started.await none).2 = true
    ∧ (started.await none).1.playback.status.completed = true := by
  intro started
  obtain ⟨-, hc⟩ := isIdle_of_new? hnew
  obtain ⟨hset, hread', hsole, hawait⟩ := soleLoop_of_new hnew hread
  have hstarts : Operation.starts .start = true := rfl
  have hstarted := hset.perform_of_read hc hread' hstarts
  exact ⟨⟨_, hstarted⟩, hstarted.await_completes hc hfine (Trace.size_pos_of_read hread) hsole hawait⟩

end Session

end Retrace
