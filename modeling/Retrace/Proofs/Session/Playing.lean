import Retrace.Proofs.Session.Gathered
import Retrace.Proofs.Trace.Reading
import Retrace.Proofs.Trace.Walk
/-!
# The steps of an execution follow the stops of its trace

An execution is idle until a trace is loaded (`Idle`), and from then on it plays that trace
(`Playing`): what it has captured are copies of the trace's stops, as far as they were reached, and
what it has gathered is what these copies show. The invariant that carries this is `Progress`: either
the player stands on the last stop captured and the stops still to come are those from there on, or
there is nothing more to play and every stop that can be reached was captured.

`Playing.step` is what one step does, in the two forms that matter to everything else: it captures the
next stop, or it captures nothing and there is nothing more to play.
-/

namespace Retrace

/-- Checkpoints play no part in what is gathered. -/
theorem Gathered.ofSnapshots_bare (captured : List Snapshot) :
    ofSnapshots (captured.map Snapshot.bare) = ofSnapshots captured := by
  unfold ofSnapshots
  rw [List.foldl_map]
  rfl

/-- How far a player has come when the stops in a list were captured. -/
inductive Progress (limits : PlayerLimits) (t : Trace) (ceiling : Nat) :
    Player → List Nat → Prop where
  | underWay (i : Nat) (stops : List Nat) (hlt : i < t.entries.size)
      (hreach : t.reaches limits i = true)
      (hstops : t.reachedStops limits ceiling = stops ++ t.reachedFrom limits ceiling i) :
      Progress limits t ceiling (Player.standing limits t i) stops
  | exhausted (p : Player) (hlimits : p.limits = limits) (htrace : p.trace = some t)
      (hdone : p.isDone = true) : Progress limits t ceiling p (t.reachedStops limits ceiling)

theorem Progress.limits_eq {limits : PlayerLimits} {t : Trace} {ceiling : Nat} {p : Player}
    {stops : List Nat} (h : Progress limits t ceiling p stops) : p.limits = limits := by
  cases h with
  | underWay => rfl
  | exhausted hlimits => assumption

theorem Progress.trace_eq {limits : PlayerLimits} {t : Trace} {ceiling : Nat} {p : Player}
    {stops : List Nat} (h : Progress limits t ceiling p stops) : p.trace = some t := by
  cases h with
  | underWay => rfl
  | exhausted => assumption

theorem Progress.isPrefix {limits : PlayerLimits} {t : Trace} {ceiling : Nat} {p : Player}
    {stops : List Nat} (h : Progress limits t ceiling p stops) :
    stops <+: t.reachedStops limits ceiling := by
  cases h with
  | underWay i _ _ _ hstops => exact ⟨t.reachedFrom limits ceiling i, hstops.symm⟩
  | exhausted => exact List.prefix_rfl

theorem Progress.eq_of_isDone {limits : PlayerLimits} {t : Trace} {ceiling : Nat} {p : Player}
    {stops : List Nat} (h : Progress limits t ceiling p stops) (hdone : p.isDone = true) :
    stops = t.reachedStops limits ceiling := by
  cases h with
  | underWay => cases hdone
  | exhausted => rfl

theorem Progress.start (limits : PlayerLimits) (t : Trace) (ceiling : Nat)
    (hpos : 0 < t.entries.size) : Progress limits t ceiling (Player.standing limits t 0) [] := by
  refine .underWay 0 [] hpos ?_ rfl
  rw [Trace.reaches_iff]
  intro p hp
  omega

/-- An entry that is reached over small steps without a failure, from one that is reached, is
reached. -/
theorem reaches_of_clear {limits : PlayerLimits} {t : Trace} {i q : Nat}
    (hreach : t.reaches limits i = true)
    (hclear : ∀ j, i ≤ j → j < q → t.failure? limits j = none) : t.reaches limits q = true := by
  rw [Trace.reaches_iff] at hreach ⊢
  intro j hj
  rcases Nat.lt_or_ge j i with hji | hij
  · exact hreach j hji
  · exact hclear j hij hj

/-- What a step of a player comes to: it goes on to one stop more, or it fails or ends, and then no
stop is left that could be reached. -/
theorem Progress.stepToNextLine {limits : PlayerLimits} {t : Trace} {ceiling i : Nat}
    {stops : List Nat} (hc : 0 < ceiling) (hlt : i < t.entries.size)
    (hreach : t.reaches limits i = true)
    (hstops : t.reachedStops limits ceiling = stops ++ t.reachedFrom limits ceiling i) :
    (∃ q e line, (Player.standing limits t i).stepToNextLine ceiling
        = (Player.standing limits t q, .ok line) ∧ line.hasMore = true
        ∧ t.entries[q]? = some e
        ∧ Progress limits t ceiling (Player.standing limits t q) (stops ++ [q])) ∨
    (∃ p e, (Player.standing limits t i).stepToNextLine ceiling = (p, .error e)
        ∧ (∃ q, q < t.entries.size ∧ t.failure? limits q = some e) ∧ p.isDone = true
        ∧ Progress limits t ceiling p stops) ∨
    (∃ p line, (Player.standing limits t i).stepToNextLine ceiling = (p, .ok line)
        ∧ line.hasMore = false ∧ p.current? = none
        ∧ p.isDone = true ∧ Progress limits t ceiling p stops) := by
  have houtcome : Player.LineOutcome limits t ceiling i _ :=
    Player.stepToNextLine_standing limits t hlt
  generalize (Player.standing limits t i).stepToNextLine ceiling = result at houtcome ⊢
  cases houtcome with
  | stopped q line hstop hclear hmore =>
    left
    have hq := (Trace.nextStop?_eq_some_iff.mp hstop).lt_size
    have hreachq := reaches_of_clear hreach hclear
    refine ⟨q, t.entries[q], line, rfl, hmore, Array.getElem?_eq_getElem hq, ?_⟩
    refine .underWay q _ hq hreachq ?_
    rw [hstops, Trace.reachedFrom_of_some hstop (Trace.lt_of_nextStop? hc hstop) hreachq,
      List.append_assoc]
    rfl
  | failed q e hle hlt hfailure hstop =>
    right; left
    -- a stop beyond the failing small step is not reached
    have hnone : t.reachedFrom limits ceiling i = [] := by
      apply Trace.reachedFrom_eq_nil
      intro r hr
      cases hrr : t.reaches limits r with
      | false => rfl
      | true =>
        have := (Trace.reaches_iff.mp hrr) q (hstop r hr)
        rw [hfailure] at this
        cases this
    rw [hnone, List.append_nil] at hstops
    have hdone : ({ Player.standing limits t (Player.failedAt q e) with
        failure := some e } : Player).isDone = true := rfl
    refine ⟨_, e, rfl, ⟨q, hlt, hfailure⟩, hdone, ?_⟩
    rw [← hstops]
    exact .exhausted _ rfl rfl hdone
  | ended line hstop hmore =>
    right; right
    have hnone : t.reachedFrom limits ceiling i = [] := by
      apply Trace.reachedFrom_eq_nil
      intro r hr
      rw [hstop] at hr
      cases hr
    rw [hnone, List.append_nil] at hstops
    have hdone : ({ Player.standing limits t (t.entries.size - 1) with
        running := false } : Player).isDone = true := rfl
    refine ⟨_, line, rfl, hmore, rfl, hdone, ?_⟩
    rw [← hstops]
    exact .exhausted _ rfl rfl hdone

namespace Execution

/-- An execution with nothing loaded and nothing gathered. -/
structure Idle (c : Config) (x : Execution) : Prop where
  started : x.started = false
  ceiling : x.maxMicroSteps = c.maxMicroSteps
  limits : x.player.limits = c.player
  history : x.history.Valid
  cursor : x.history.cursor = none
  captures : x.history.captures = 0
  gathered : x.gathered = .nothing

/-- An execution under way that has captured the given snapshots. -/
structure Collected (c : Config) (x : Execution) (captured : List Snapshot) : Prop where
  started : x.started = true
  ceiling : x.maxMicroSteps = c.maxMicroSteps
  history : x.history.Valid
  captures : x.history.captures = captured.length
  gathered : x.gathered = .ofSnapshots captured

/-- An execution that plays a trace and has captured the given snapshots. -/
structure Playing (c : Config) (t : Trace) (x : Execution) (captured : List Snapshot) : Prop
    extends Collected c x captured where
  progress : ∃ stops, Progress c.player t c.maxMicroSteps x.player stops
    ∧ captured.map Snapshot.bare = t.copies stops

/-- No more is captured than there are stops to be reached. -/
theorem Playing.length_le {c : Config} {t : Trace} {x : Execution} {captured : List Snapshot}
    (h : Playing c t x captured) :
    captured.length ≤ (t.reachedStops c.player c.maxMicroSteps).length := by
  obtain ⟨stops, hprogress, hcopies⟩ := h.progress
  have hcaptured : captured.length = (t.copies stops).length := by
    rw [← hcopies, List.length_map]
  have hstops : (t.copies stops).length ≤ stops.length := List.length_filterMap_le _ _
  have hreached := hprogress.isPrefix.length_le
  omega

/-! ## Loading -/

theorem idle_new (c : Config) : Idle c (.new c) :=
  ⟨rfl, rfl, rfl, History.valid_empty c.history, rfl, rfl, rfl⟩

theorem Playing.reset {c : Config} {t : Trace} {x : Execution} {captured : List Snapshot}
    (h : Playing c t x captured) : Idle c x.reset := by
  obtain ⟨stops, hprogress, -⟩ := h.progress
  exact ⟨rfl, h.ceiling, hprogress.limits_eq, h.history.clear, rfl, rfl, rfl⟩

theorem Idle.reset {c : Config} {x : Execution} (h : Idle c x) : Idle c x.reset :=
  ⟨rfl, h.ceiling, h.limits, h.history.clear, rfl, rfl, rfl⟩

/-- The counters that a start sets back were at nothing. -/
theorem Idle.gathered_restarted {c : Config} {x : Execution} (h : Idle c x) :
    Gathered.mk x.baseline x.tracker 0 0 = .nothing := by
  have hgathered := h.gathered
  unfold Execution.gathered Gathered.nothing at hgathered
  injection hgathered with hbaseline htracker
  rw [hbaseline, htracker]
  rfl

/-- What a start makes of an idle execution with a trace to play. -/
theorem Idle.start_eq {c : Config} {t : Trace} {x : Execution} (h : Idle c x)
    (hread : Trace.read x.source = .ok t) :
    x.start = ({ x with
      counters := .start
      player := Player.standing c.player t 0
      readOnly := true
      started := true }, [], .ok .started) := by
  have hblank : isBlankText x.source = false := Trace.not_blank_of_read hread
  have hload : x.player.load x.source = (Player.standing c.player t 0, .ok ()) := by
    unfold Player.load Player.reset
    rw [hread, h.limits]
    rfl
  unfold start
  rw [h.started, hblank]
  simp only [Bool.false_eq_true, if_false, hload]

/-- A run can be started of any source that reads as a trace. -/
theorem Idle.start_of_read {c : Config} {t : Trace} {x : Execution} (h : Idle c x)
    (hread : Trace.read x.source = .ok t) :
    Playing c t x.start.1 [] ∧ x.start.2.2 = .ok .started := by
  rw [h.start_eq hread]
  refine ⟨⟨⟨rfl, h.ceiling, h.history, h.captures, h.gathered_restarted⟩, ?_⟩, rfl⟩
  exact ⟨[], Progress.start c.player t c.maxMicroSteps (Trace.size_pos_of_read hread), rfl⟩

theorem Idle.start_of_error {c : Config} {x : Execution} {e : RunFailure} (h : Idle c x)
    (hread : Trace.read x.source = .error e) :
    Idle c x.start.1 ∧ x.start.2.2 ≠ .ok .started := by
  have hload : x.player.load x.source
      = ({ Player.idle c.player with failure := some e }, .error e) := by
    unfold Player.load Player.reset
    rw [hread, h.limits]
  unfold start
  rw [h.started]
  cases hblank : isBlankText x.source with
  | true =>
    refine ⟨h, ?_⟩
    intro hstarted
    cases hstarted
  | false =>
    simp only [Bool.false_eq_true, if_false, hload]
    refine ⟨⟨rfl, h.ceiling, rfl, h.history, h.cursor, h.captures, h.gathered_restarted⟩, ?_⟩
    intro hstarted
    cases hstarted

theorem Idle.withSource {c : Config} {x : Execution} (h : Idle c x) (text : String) :
    Idle c { x with source := text } :=
  ⟨h.started, h.ceiling, h.limits, h.history, h.cursor, h.captures, h.gathered⟩

/-! ## What leaves the player alone -/

theorem Playing.withSource {c : Config} {t : Trace} {x : Execution} {captured : List Snapshot}
    (h : Playing c t x captured) (text : String) : Playing c t { x with source := text } captured :=
  ⟨⟨h.started, h.ceiling, h.history, h.captures, h.gathered⟩, h.progress⟩

/-- Going back and forth in the history does not touch what was captured. -/
theorem Playing.stepBack {c : Config} {t : Trace} {x : Execution} {captured : List Snapshot}
    (h : Playing c t x captured) :
    Playing c t { x with history := x.history.stepBack.1 } captured := by
  refine ⟨⟨h.started, h.ceiling, h.history.stepBack, ?_, h.gathered⟩, h.progress⟩
  rw [← h.captures, History.stepBack_fst]

theorem Playing.stepForward {c : Config} {t : Trace} {x : Execution} {captured : List Snapshot}
    (h : Playing c t x captured) :
    Playing c t { x with history := x.history.stepForward.1 } captured := by
  refine ⟨⟨h.started, h.ceiling, h.history.stepForward, ?_, h.gathered⟩, h.progress⟩
  rw [← h.captures, History.stepForward_fst]

/-! ## A step -/

/-- What a step of an execution comes to. -/
inductive Stepped (c : Config) (t : Trace) (captured : List Snapshot) :
    Execution → StepOutcome → Prop where
  /-- The next stop is captured. -/
  | more {x : Execution} (s : Snapshot) (hplaying : Playing c t x (captured ++ [s]))
      (hcurrent : x.history.current? = some s) : Stepped c t captured x .more
  /-- Nothing is captured, and there is nothing more to play. -/
  | exhausted {x : Execution} {outcome : StepOutcome} (hplaying : Playing c t x captured)
      (hdone : x.player.isDone = true) (hmore : outcome ≠ .more)
      (hfailed : ∀ e, outcome = .failed e →
        ∃ q r, q < t.entries.size ∧ t.failure? c.player q = some r) :
      Stepped c t captured x outcome

/-- A capture with the player on an entry puts a copy of this entry into the history. -/
theorem Collected.capture {c : Config} {t : Trace} {x : Execution} {captured : List Snapshot}
    {limits : PlayerLimits} {q : Nat} {e : Entry} (h : Collected c x captured)
    (hplayer : x.player = Player.standing limits t q) (he : t.entries[q]? = some e) :
    ∃ s, s.bare = e.copy q ∧ Collected c x.capture.1 (captured ++ [s])
      ∧ x.capture.1.history.current? = some s ∧ x.capture.1.player = x.player := by
  have hposition : x.player.probe.position = some ⟨q, e.line, e.column, e.nodeType⟩ := by
    rw [hplayer]
    show Option.map _ (t.entries[q]?) = _
    rw [he]
    rfl
  have hbare : (x.history.shown x.player.probe ⟨q, e.line, e.column, e.nodeType⟩).bare
      = e.copy q := by
    rw [hplayer]
    show Snapshot.mk _ ((t.entries[q]?).elim [] Entry.scopes) ((t.entries[q]?).elim [] Entry.frames)
      none = e.copy q
    rw [he]
    rfl
  generalize hs : x.history.shown x.player.probe ⟨q, e.line, e.column, e.nodeType⟩ = s at hbare
  have hcounted := h.history.withCaptures (x.history.captures + 1)
  refine ⟨s, hbare, ?_⟩
  rw [capture_of_position hposition, hs, observe_frame]
  refine ⟨⟨h.started, h.ceiling, hcounted.append s, ?_, ?_⟩, hcounted.append_current s, rfl⟩
  · show (History.append _ s).1.captures = _
    rw [History.append_captures, List.length_append, ← h.captures]
    rfl
  · show (observe _ s).1.gathered = _
    rw [gathered_observe, Gathered.ofSnapshots_concat, ← h.gathered]
    rfl

/-- One step captures the next stop, or there is none that could be reached. -/
theorem Playing.step {c : Config} {t : Trace} {x : Execution} {captured : List Snapshot}
    (hc : 0 < c.maxMicroSteps) (h : Playing c t x captured) :
    Stepped c t captured x.step.1 x.step.2.2 := by
  by_cases hdone : x.player.isDone = true
  · rw [step_of_isDone hdone]
    refine .exhausted ⟨⟨h.started, h.ceiling, h.history, h.captures, h.gathered⟩, h.progress⟩ hdone ?_ ?_
    · exact nofun
    · exact nofun
  obtain ⟨stops, hprogress, hcopies⟩ := h.progress
  generalize hplayer : x.player = p at hprogress hdone
  cases hprogress with
  | exhausted _ _ _ hover => exact absurd hover hdone
  | underWay i _ hlt hreach hstops =>
    have hgo : (!x.started || x.player.isDone) = false := by
      rw [h.started, hplayer]
      rfl
    unfold Execution.step
    rw [hgo, if_neg Bool.false_ne_true, hplayer]
    rcases Progress.stepToNextLine hc hlt hreach hstops with
      ⟨q, e, line, hstep, hmore, he, hnext⟩ | ⟨p, e, hstep, hfailure, hdone, hnext⟩
        | ⟨p, line, hstep, hmore, hcurrent, hdone, hnext⟩
    all_goals rw [← h.ceiling] at hstep
    · -- the next stop is reached
      simp only [hstep, hmore, if_true]
      have hcollected : Collected c { x with
          player := Player.standing c.player t q
          counters := x.counters.countStep } captured :=
        ⟨h.started, h.ceiling, h.history, h.captures, h.gathered⟩
      obtain ⟨s, hbare, hcapture, hshown, hkept⟩ := hcollected.capture rfl he
      refine .more s ⟨hcapture, stops ++ [q], ?_, ?_⟩ hshown
      · rw [hkept]
        exact hnext
      · rw [List.map_append, hcopies]
        unfold Trace.copies
        rw [List.filterMap_append]
        simp [he, hbare]
    · -- a small step fails before that
      simp only [hstep]
      refine .exhausted ⟨⟨h.started, h.ceiling, h.history, h.captures, h.gathered⟩,
        stops, hnext, hcopies⟩ hdone ?_ ?_
      · exact nofun
      · intro r _
        obtain ⟨q, hlt, hq⟩ := hfailure
        exact ⟨q, e, hlt, hq⟩
    · -- the trace comes to its end, where there is nothing to see
      simp only [hstep, hmore, Bool.false_eq_true, if_false]
      have hnowhere : p.probe.position = none := by
        unfold Player.probe
        rw [hcurrent]
        rfl
      rw [capture_of_no_position hnowhere]
      refine .exhausted ⟨⟨h.started, h.ceiling, h.history, h.captures, h.gathered⟩,
        stops, hnext, hcopies⟩ hdone ?_ ?_
      · exact nofun
      · exact nofun

/-- After a step the trace is still being played. -/
theorem Playing.exists_step {c : Config} {t : Trace} {x : Execution} {captured : List Snapshot}
    (hc : 0 < c.maxMicroSteps) (h : Playing c t x captured) :
    ∃ captured', Playing c t x.step.1 captured' := by
  have hstep := h.step hc
  generalize x.step.2.2 = outcome at hstep
  cases hstep with
  | more s hplaying _ => exact ⟨_, hplaying⟩
  | exhausted hplaying _ _ _ => exact ⟨_, hplaying⟩

end Execution

end Retrace
