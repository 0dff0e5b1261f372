import Retrace.Session.Execution
import Retrace.Proofs.History.Basic
/-!
# What an execution gathers

Of every snapshot that it captures an execution takes notice once: of its depth, and of the call or
return that it shows. `Gathered` is what results, on its own, as a fold over the captured snapshots.
Nothing else that an execution does touches it, so it depends on what was captured alone, and not on
what the history still retains (`gathered_observe`, `capture_of_position`).
-/

namespace Retrace

/-- What a step tells of a snapshot that it captures, after one of the given depth: the snapshot, and right
after it the call or return that it shows. -/
def Snapshot.announced (s : Snapshot) (previous : Option Nat) : List Event :=
  .snapshot s :: (s.transition previous).event?.toList.map .call

/-- What is read off the captured snapshots. -/
structure Gathered where
  baseline : Baseline
  tracker : Tracker
  functionCalls : Nat
  maxStackDepth : Nat

namespace Gathered

/-- Nothing captured yet. -/
def nothing : Gathered := ⟨.none, .empty, 0, 0⟩

/-- Takes notice of a snapshot. -/
def observe (g : Gathered) (s : Snapshot) : Gathered :=
  let (baseline, transition) := g.baseline.observe s
  { baseline := baseline
    tracker := transition.event?.elim g.tracker g.tracker.follow
    functionCalls := if transition.isEntered then g.functionCalls + 1 else g.functionCalls
    maxStackDepth := max g.maxStackDepth s.depth }

/-- What is read off several snapshots, in their order. -/
def ofSnapshots (captured : List Snapshot) : Gathered := captured.foldl observe nothing

theorem ofSnapshots_concat (captured : List Snapshot) (s : Snapshot) :
    ofSnapshots (captured ++ [s]) = (ofSnapshots captured).observe s := by
  unfold ofSnapshots
  rw [List.foldl_append]
  rfl

end Gathered

namespace Execution

/-- What the execution has gathered. -/
def gathered (x : Execution) : Gathered :=
  ⟨x.baseline, x.tracker, x.counters.functionCalls, x.counters.maxStackDepth⟩

theorem gathered_observe (x : Execution) (s : Snapshot) :
    (x.observe s).1.gathered = x.gathered.observe s := by
  unfold observe Gathered.observe gathered
  simp only
  rcases x.baseline.observe s with ⟨baseline, transition⟩
  cases transition with
  | seeded => rfl
  | unchanged => rfl
  | entered call => cases call <;> rfl
  | returned value step => rfl

/-- Taking notice of a snapshot changes nothing but what is gathered. -/
theorem observe_frame (x : Execution) (s : Snapshot) :
    (x.observe s).1 = { x with
      tracker := (x.observe s).1.tracker
      baseline := (x.observe s).1.baseline
      counters := (x.observe s).1.counters } := by
  unfold observe
  rcases x.baseline.observe s with ⟨baseline, transition⟩
  cases transition with
  | seeded => rfl
  | unchanged => rfl
  | entered call => cases call <;> rfl
  | returned value step => rfl

theorem capture_of_no_position {x : Execution} (h : x.player.probe.position = none) :
    x.capture = (x, []) := by
  simp only [capture, x.history.capture_of_no_position h]
  rfl

/-- A capture at a position puts a snapshot into the history and takes notice of it. -/
theorem capture_of_position {x : Execution} {position : Position}
    (h : x.player.probe.position = some position) :
    x.capture.1
      = ({ x with
            history := ({ x.history with captures := x.history.captures + 1 }.append
              (x.history.shown x.player.probe position)).1 }.observe
          (x.history.shown x.player.probe position)).1 := by
  simp only [capture, x.history.capture_of_position h]

/-- Taking notice of a snapshot tells of it and of its call. -/
theorem events_observe (x : Execution) (s : Snapshot) :
    (x.observe s).2 = s.announced x.baseline.depth := by
  unfold observe Baseline.observe Snapshot.announced
  simp only
  cases (s.transition x.baseline.depth).event? <;> rfl

/-- A capture tells of what it captures, after an eviction if there is one to tell of. -/
theorem events_capture {x : Execution} {position : Position}
    (h : x.player.probe.position = some position) :
    x.capture.2 = ({ x.history with captures := x.history.captures + 1 }.append
        (x.history.shown x.player.probe position)).2.toList.map .historyLimit
      ++ (x.history.shown x.player.probe position).announced x.baseline.depth := by
  simp only [capture, x.history.capture_of_position h, events_observe]

theorem history_capture {x : Execution} {position : Position}
    (h : x.player.probe.position = some position) :
    x.capture.1.history = ({ x.history with captures := x.history.captures + 1 }.append
      (x.history.shown x.player.probe position)).1 := by
  rw [capture_of_position h, observe_frame]

theorem totalSteps_observe (x : Execution) (s : Snapshot) :
    (x.observe s).1.counters.totalSteps = x.counters.totalSteps := by
  unfold observe
  rcases x.baseline.observe s with ⟨baseline, transition⟩
  cases transition with
  | seeded => rfl
  | unchanged => rfl
  | entered call => cases call <;> rfl
  | returned value step => rfl

/-- A capture leaves everything alone but the history and what is gathered. -/
theorem capture_frame (x : Execution) :
    x.capture.1 = { x with
      history := x.capture.1.history
      tracker := x.capture.1.tracker
      baseline := x.capture.1.baseline
      counters := x.capture.1.counters } := by
  cases hposition : x.player.probe.position with
  | none => rw [capture_of_no_position hposition]
  | some position =>
    rw [capture_of_position hposition, observe_frame]

/-- It counts no step. -/
theorem totalSteps_capture (x : Execution) :
    x.capture.1.counters.totalSteps = x.counters.totalSteps := by
  cases hposition : x.player.probe.position with
  | none => rw [capture_of_no_position hposition]
  | some position => rw [capture_of_position hposition, totalSteps_observe]

/-! ## A step -/

/-- An execution whose player went on to a line, before anything is captured there. -/
def atLine (x : Execution) (p : Player) (line : LineStep) : Execution :=
  { x with
    player := p
    counters := if line.hasMore then x.counters.countStep else x.counters.countStep.finish }

/-- What can come of a step: nothing was left to do, or the player did not get to the next line, or it
did, and what it found there was captured. -/
inductive StepResult (x : Execution) : Execution × List Event × StepOutcome → Prop where
  | idle (hover : x.started = false ∨ x.player.isDone = true) :
      StepResult x ({ x with counters := x.counters.finish }, [], .finished)
  | failed {p : Player} {e : RunFailure} (hstarted : x.started = true)
      (hlive : x.player.isDone = false)
      (hline : x.player.stepToNextLine x.maxMicroSteps = (p, .error e)) :
      StepResult x ({ x with
        player := p
        readOnly := false
        counters := x.counters.countStep.finish }, [], .failed (.ofRun e))
  | onward {p : Player} {line : LineStep} (hstarted : x.started = true)
      (hlive : x.player.isDone = false)
      (hline : x.player.stepToNextLine x.maxMicroSteps = (p, .ok line)) :
      StepResult x ((x.atLine p line).capture.1, (x.atLine p line).capture.2,
        if line.hasMore then .more else .finished)

/-- Every step is one of these. -/
theorem stepResult (x : Execution) : StepResult x x.step := by
  unfold step
  split
  next hover =>
    refine .idle ?_
    rw [Bool.or_eq_true, Bool.not_eq_true'] at hover
    exact hover
  next hgo =>
    rw [Bool.or_eq_true, Bool.not_eq_true', not_or, Bool.not_eq_false, Bool.not_eq_true] at hgo
    cases hline : x.player.stepToNextLine x.maxMicroSteps with
    | mk p r =>
      cases r with
      | error e => exact .failed hgo.1 hgo.2 hline
      | ok line => exact .onward hgo.1 hgo.2 hline

/-- No step changes the source, the bound on its small steps, or whether a run was started. -/
theorem step_frame (x : Execution) : x.step.1.source = x.source
    ∧ x.step.1.maxMicroSteps = x.maxMicroSteps ∧ x.step.1.started = x.started := by
  have hstep := x.stepResult
  generalize x.step = r at hstep
  cases hstep with
  | idle => exact ⟨rfl, rfl, rfl⟩
  | failed => exact ⟨rfl, rfl, rfl⟩
  | onward =>
    rw [capture_frame]
    exact ⟨rfl, rfl, rfl⟩

/-- What a step of an execution does that has more to play: it is counted, and it takes the player
one line on. -/
theorem step_of_live {x : Execution} (hstarted : x.started = true)
    (hlive : x.player.isDone = false) :
    x.step.1.player = (x.player.stepToNextLine x.maxMicroSteps).1
    ∧ x.step.1.counters.totalSteps = x.counters.totalSteps + 1
    ∧ (x.step.2.2 = .more ↔
        ∃ line, (x.player.stepToNextLine x.maxMicroSteps).2 = .ok line ∧ line.hasMore = true) := by
  have hstep := x.stepResult
  generalize x.step = r at hstep
  cases hstep with
  | idle hover => exact absurd hover (by simp [hstarted, hlive])
  | failed _ _ hline =>
    rw [hline]
    exact ⟨rfl, rfl, by simp⟩
  | @onward p line _ _ hline =>
    rw [hline]
    have htotal : (x.atLine p line).counters.totalSteps = x.counters.totalSteps + 1 := by
      unfold atLine
      cases line.hasMore <;> rfl
    exact ⟨congrArg player (capture_frame _), (totalSteps_capture _).trans htotal, by simp⟩

/-- With no run started, or nothing more to play, a step only ends the run. -/
theorem step_of_over {x : Execution} (hover : x.started = false ∨ x.player.isDone = true) :
    x.step = ({ x with counters := x.counters.finish }, [], .finished) := by
  have hstep := x.stepResult
  generalize x.step = r at hstep
  cases hstep with
  | idle => rfl
  | failed hstarted hlive | onward hstarted hlive => exact absurd hover (by simp [hstarted, hlive])

theorem step_of_not_started {x : Execution} (h : x.started = false) :
    x.step = ({ x with counters := x.counters.finish }, [], .finished) := step_of_over (Or.inl h)

theorem step_of_isDone {x : Execution} (hdone : x.player.isDone = true) :
    x.step = ({ x with counters := x.counters.finish }, [], .finished) := step_of_over (Or.inr hdone)

end Execution

end Retrace
