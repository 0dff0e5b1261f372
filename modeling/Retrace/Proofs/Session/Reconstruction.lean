import Retrace.Proofs.Session.Captures
import Retrace.Proofs.Session.Effect
/-!
# Going back and forth does not disturb what was gathered

The history of a session forgets: it evicts, and it drops redo branches. The call tree, the baseline
and the counters do not, for they are read off each snapshot once, when it is captured. So they are
those of all snapshots captured since the last reset, whatever the history still holds of them
(`gathered_of_captures`).

How many snapshots were captured is told by how many steps the program took (`Execution.Paced`), and
which ones by the trace. So the source and the number of its steps determine what was gathered: it is
that of `Trace.shownBy`, in which neither the history nor its capacity occurs.

The steps are counted beside the session in a `Ledger`, and on the player itself: a step is where the
player goes on or comes to its end.
-/

namespace Retrace

open Session (Operation newlyCaptured IsIdle IsPlaying)

namespace Player

/-- Where a player is: the entry that it stands on, and whether it is done. -/
def mark (p : Player) : Nat × Bool := (p.position, p.isDone)

theorem mark_ne_of_position {p q : Player} (h : p.position < q.position) : q.mark ≠ p.mark := by
  intro he
  have hposition : q.position = p.position := congrArg Prod.fst he
  omega

theorem mark_ne_of_isDone {p q : Player} (hp : p.isDone = false) (hq : q.isDone = true) :
    q.mark ≠ p.mark := by
  intro he
  have hdone : q.isDone = p.isDone := congrArg Prod.snd he
  rw [hp, hq] at hdone
  cases hdone

end Player

namespace Execution

theorem totalSteps_start {x : Execution} (h : x.counters.totalSteps = 0) :
    x.start.1.counters.totalSteps = 0 := by
  unfold Execution.start
  split
  · exact h
  · split
    · exact h
    · simp only
      generalize x.player.load x.source = loaded
      obtain ⟨p, r⟩ := loaded
      cases r <;> rfl

/-- An execution that plays a trace, has captured some snapshots and has taken `steps` steps: each of
them captured a snapshot, but for the one that found nothing more to play. -/
structure Paced (c : Config) (t : Trace) (x : Execution) (captured : List Snapshot)
    (steps : Nat) : Prop where
  playing : Playing c t x captured
  total : x.counters.totalSteps = steps
  under_way : x.player.isDone = false → steps = captured.length
  finished : x.player.isDone = true → steps = captured.length + 1

section Paced

variable {c : Config} {t : Trace} {x : Execution} {captured : List Snapshot} {steps : Nat}

/-- A step with more to play goes on to a later entry, or there is nothing more to play. -/
theorem Playing.step_of_live (hc : 0 < c.maxMicroSteps) (h : Playing c t x captured)
    (hlive : x.player.isDone = false) :
    x.step.1.counters.totalSteps = x.counters.totalSteps + 1
    ∧ ((x.step.2.2 = .more ∧ x.player.position < x.step.1.player.position
          ∧ x.step.1.player.isDone = false)
      ∨ (x.step.2.2 ≠ .more ∧ x.step.1.player.isDone = true)) := by
  obtain ⟨hplayer, htotal, hmore⟩ := Execution.step_of_live h.started hlive
  refine ⟨htotal, ?_⟩
  rw [hplayer]
  obtain ⟨stops, hprogress, -⟩ := h.progress
  generalize x.player = p at hprogress hlive hmore
  cases hprogress with
  | exhausted _ _ _ hdone =>
    rw [hdone] at hlive
    cases hlive
  | underWay i _ hlt _ _ =>
    have houtcome : Player.LineOutcome c.player t c.maxMicroSteps i _ :=
      Player.stepToNextLine_standing c.player t hlt
    rw [h.ceiling] at hmore ⊢
    generalize (Player.standing c.player t i).stepToNextLine c.maxMicroSteps = result at houtcome hmore
    cases houtcome with
    | stopped q line hstop hclear hgoes =>
      refine Or.inl ⟨hmore.mpr ⟨line, rfl, hgoes⟩, ?_, rfl⟩
      exact Trace.lt_of_nextStop? hc hstop
    | failed q e hle hlt hfailure hstop =>
      refine Or.inr ⟨fun he => ?_, rfl⟩
      obtain ⟨line, hline, -⟩ := hmore.mp he
      cases hline
    | ended line hstop hends =>
      refine Or.inr ⟨fun he => ?_, rfl⟩
      obtain ⟨line', hline, hgoes⟩ := hmore.mp he
      injection hline with hline
      rw [← hline, hends] at hgoes
      cases hgoes

/-- A step is seen on the player if it was one of the program, and it keeps the pace. -/
theorem Paced.step (hc : 0 < c.maxMicroSteps) (h : Paced c t x captured steps)
    {captured' : List Snapshot} (h' : Playing c t x.step.1 captured') :
    Paced c t x.step.1 captured'
      (steps + if x.step.1.player.mark = x.player.mark then 0 else 1) := by
  have hstep := h.playing.step hc
  cases hlive : x.player.isDone with
  | true =>
    -- there is nothing to do, and nothing is done
    have hsame := step_of_isDone hlive
    have hlength : captured'.length = captured.length := by
      rw [← h'.captures, ← h.playing.captures, hsame]
    have hsteps := h.finished hlive
    rw [hsame] at h' ⊢
    rw [if_pos rfl]
    refine ⟨h', h.total, fun hgo => ?_, fun _ => by omega⟩
    have hgo : x.player.isDone = false := hgo
    rw [hlive] at hgo
    cases hgo
  | false =>
    obtain ⟨htotal, hcases⟩ := h.playing.step_of_live hc hlive
    have hsteps := h.under_way hlive
    have htotal' := h.total
    have hcaptures := h'.captures
    generalize x.step.2.2 = outcome at hstep hcases
    generalize x.step.1 = x' at h' hstep htotal hcases hcaptures ⊢
    rcases hcases with ⟨hmore, hposition, hgo⟩ | ⟨hmore, hdone⟩
    · rw [if_neg (Player.mark_ne_of_position hposition)]
      cases hstep with
      | more s hplaying _ =>
        have hnext := hplaying.captures
        rw [List.length_append, List.length_singleton] at hnext
        refine ⟨h', by omega, fun _ => by omega, fun hdone => ?_⟩
        rw [hgo] at hdone
        cases hdone
      | exhausted _ _ hnot _ => exact absurd hmore hnot
    · rw [if_neg (Player.mark_ne_of_isDone hlive hdone)]
      cases hstep with
      | more s _ _ => exact absurd rfl hmore
      | exhausted hplaying _ _ _ =>
        have hsame := hplaying.captures
        refine ⟨h', by omega, fun hgo => ?_, fun _ => by omega⟩
        rw [hgo] at hdone
        cases hdone

/-- What was captured is told by the number of steps: copies of as many stops as there were steps, as
far as the trace has them. -/
theorem Paced.copies_eq (hc : 0 < c.maxMicroSteps) (h : Paced c t x captured steps) :
    captured.map Snapshot.bare
      = t.copies ((t.reachedStops c.player c.maxMicroSteps).take steps) := by
  obtain ⟨stops, hprogress, hcopies⟩ := h.playing.progress
  have hentries := (Trace.reachedStops_increasing (t := t) hc c.player).2
  have hlength : stops.length = captured.length := by
    have hcopied := Trace.length_copies fun q hq => hentries q (hprogress.isPrefix.subset hq)
    rw [← hcopied, ← hcopies, List.length_map]
  rw [hcopies]
  congr 1
  cases hdone : x.player.isDone with
  | false =>
    rw [h.under_way hdone, ← hlength]
    exact List.prefix_iff_eq_take.mp hprogress.isPrefix
  | true =>
    have hall := hprogress.eq_of_isDone hdone
    rw [h.finished hdone, ← hall, ← hlength, List.take_of_length_le (Nat.le_succ _)]

/-- An execution that is otherwise only moved about keeps the pace. -/
theorem Paced.keep (h : Paced c t x captured steps) {x' : Execution} {captured' : List Snapshot}
    (h' : Playing c t x' captured') (hplayer : x'.player = x.player)
    (htotal : x'.counters.totalSteps = x.counters.totalSteps)
    (hcaptures : x'.history.captures = x.history.captures) : Paced c t x' captured' steps := by
  have hlength : captured'.length = captured.length := by
    rw [← h'.captures, ← h.playing.captures, hcaptures]
  refine ⟨h', htotal.trans h.total, ?_, ?_⟩
  · rw [hplayer, hlength]
    exact h.under_way
  · rw [hplayer, hlength]
    exact h.finished

/-- A source that was loaded has been played no step. -/
theorem Idle.paced_start (h : Idle c x) (hread : Trace.read x.source = .ok t) :
    Paced c t x.start.1 [] 0 := by
  have hplaying := (h.start_of_read hread).1
  rw [h.start_eq hread] at hplaying ⊢
  exact ⟨hplaying, rfl, fun _ => rfl, fun hdone => by cases hdone⟩

end Paced

end Execution

namespace Session

/-- The steps of the program from one state of a session to a later one, if at most one operation lies
between them: the player has gone on or is done, and not because its source was loaded. -/
def newlyStepped (s s' : Session) : Nat :=
  if s'.execution.started = true ∧ s'.execution.player.mark ≠ s.load.1.execution.player.mark then 1
  else 0

/-- A session that plays a trace, has captured some snapshots and has taken some steps. -/
structure IsPaced (c : Config) (t : Trace) (s : Session) (captured : List Snapshot) (steps : Nat) :
    Prop where
  session : IsPlaying c t s captured
  paced : Execution.Paced c t s.execution captured steps

theorem newlyStepped_of_started {s s' : Session} (hs : s.execution.started = true)
    (hs' : s'.execution.started = true) :
    newlyStepped s s' = if s'.execution.player.mark = s.execution.player.mark then 0 else 1 := by
  have hload : s.load.1.execution = s.execution := by
    rw [execution_load, Execution.start_again hs]
  unfold newlyStepped
  rw [hload, hs']
  by_cases hmark : s'.execution.player.mark = s.execution.player.mark
  · simp [hmark]
  · simp [hmark]

section Paced

variable {c : Config} {t : Trace} {s : Session} {captured : List Snapshot} {steps : Nat}

theorem IsPaced.perform (hc : 0 < c.maxMicroSteps) (h : IsPaced c t s captured steps)
    {op : Operation} (hop : op ≠ .reset) :
    IsPaced c t (s.perform op) (captured ++ newlyCaptured s (s.perform op))
      (steps + newlyStepped s (s.perform op)) := by
  have hplaying := h.session.perform hc hop
  have haffected := perform_affected h.session.free hop
  have hstarted := h.session.playing.started
  refine ⟨hplaying, ?_⟩
  have hplaying := hplaying.playing
  rw [newlyStepped_of_started hstarted hplaying.started]
  generalize captured ++ newlyCaptured s (s.perform op) = captured' at hplaying ⊢
  generalize (s.perform op).execution = x' at hplaying haffected ⊢
  rcases haffected.of_started hstarted with ⟨source, cursor, rfl⟩ | rfl
  · rw [if_pos rfl]
    exact h.paced.keep hplaying rfl rfl rfl
  · exact h.paced.step hc hplaying

/-- A run that is started of a session with a trace to play begins at no step. -/
theorem IsIdle.paced_perform (hc : 0 < c.maxMicroSteps) (h : IsIdle c s)
    (hread : Trace.read s.source = .ok t) {op : Operation} (hop : op.starts = true) :
    IsPaced c t (s.perform op) (newlyCaptured s (s.perform op))
      (newlyStepped s (s.perform op)) := by
  have hsession := h.perform_of_read hc hread hop
  have hne : op ≠ .reset := by
    intro he
    rw [he] at hop
    cases hop
  have haffected := perform_affected h.free hne
  refine ⟨hsession, ?_⟩
  have hplaying := hsession.playing
  have hloaded := h.idle.paced_start hread
  have hstarted := hloaded.playing.started
  unfold newlyStepped
  rw [execution_load]
  generalize newlyCaptured s (s.perform op) = captured' at hplaying ⊢
  generalize (s.perform op).execution = x' at hplaying haffected ⊢
  rw [hplaying.started]
  -- without the loading no run would be started
  cases haffected with
  | moved source cursor =>
    have hs : s.execution.started = true := hplaying.started
    rw [h.idle.started] at hs
    cases hs
  | loaded =>
    simp only [ne_eq, not_true_eq_false, and_false, if_false]
    exact hloaded.keep hplaying rfl rfl rfl
  | stepped =>
    have hs := hplaying.started
    rw [Execution.step_of_not_started h.idle.started] at hs
    have hs : s.execution.started = true := hs
    rw [h.idle.started] at hs
    cases hs
  | begun _ =>
    have hstep := hloaded.step hc hplaying
    rw [Nat.zero_add] at hstep
    by_cases hmark : s.execution.start.1.step.1.player.mark = s.execution.start.1.player.mark
    · simpa [hmark] using hstep
    · simpa [hmark] using hstep

/-- An idle session that stays idle takes no step. -/
theorem IsIdle.totalSteps_perform (hc : 0 < c.maxMicroSteps) (h : IsIdle c s) {op : Operation}
    (hop : op ≠ .reset) (h' : IsIdle c (s.perform op))
    (htotal : s.execution.counters.totalSteps = 0) :
    (s.perform op).execution.counters.totalSteps = 0 := by
  have haffected := perform_affected h.free hop
  have hidle := h'.idle.started
  generalize (s.perform op).execution = x' at haffected hidle ⊢
  cases haffected with
  | moved source cursor => exact htotal
  | loaded => exact Execution.totalSteps_start htotal
  | stepped =>
    rw [Execution.step_of_not_started h.idle.started]
    exact htotal
  | begun hstart =>
    -- a first step is taken of a run that was started, and then the session is not idle
    cases hread : Trace.read s.source with
    | error e => exact absurd hstart (h.idle.start_of_error hread).2
    | ok t =>
      obtain ⟨captured, hstepped⟩ := (h.idle.paced_start hread).playing.exists_step hc
      exact nomatch hidle.symm.trans hstepped.started

end Paced

end Session

/-- A journal with the source of the run and the steps that the program took since the last reset. -/
structure Ledger where
  journal : Journal
  source : String
  steps : Nat

namespace Ledger

def session (l : Ledger) : Session := l.journal.session

def captured (l : Ledger) : List Snapshot := l.journal.captured

/-- The ledger of a session in which nothing has happened. -/
def opened (s : Session) : Ledger := ⟨.opened s, s.source, 0⟩

/-- The ledger after an operation. The source is the one that is loaded if no run was started. -/
def perform (l : Ledger) (op : Operation) : Ledger where
  journal := l.journal.perform op
  source := if l.session.execution.started then l.source else l.session.source
  steps :=
    match op with
    | .reset => 0
    | op => l.steps + Session.newlyStepped l.session (l.session.perform op)

/-- The ledger after several operations. -/
def run (l : Ledger) (ops : List Operation) : Ledger := ops.foldl perform l

theorem run_session (l : Ledger) (ops : List Operation) :
    (l.run ops).session = l.session.run ops := by
  induction ops generalizing l with
  | nil => rfl
  | cons op ops ih =>
    show ((l.perform op).run ops).session = (l.session.perform op).run ops
    rw [ih]
    exact congrArg (Session.run · ops) (l.journal.perform_session op)

theorem perform_of_ne_reset (l : Ledger) {op : Operation} (hop : op ≠ .reset) :
    (l.perform op).session = l.session.perform op
    ∧ (l.perform op).captured = l.captured ++ newlyCaptured l.session (l.session.perform op)
    ∧ (l.perform op).steps = l.steps + Session.newlyStepped l.session (l.session.perform op) := by
  have hjournal := l.journal.perform_of_ne_reset hop
  refine ⟨congrArg Journal.session hjournal, congrArg Journal.captured hjournal, ?_⟩
  cases op with
  | reset => exact absurd rfl hop
  | _ => rfl

/-- A ledger is kept of a session that is idle, or that plays the source at a step for each capture. -/
inductive Kept (c : Config) (l : Ledger) : Prop where
  | idle (h : IsIdle c l.session) (hcaptured : l.captured = []) (hsteps : l.steps = 0)
      (htotal : l.session.execution.counters.totalSteps = 0) : Kept c l
  | playing (t : Trace) (hread : Trace.read l.source = .ok t)
      (h : Session.IsPaced c t l.session l.captured l.steps) : Kept c l

theorem Kept.reset {c : Config} {l : Ledger} (h : Kept c l) : Kept c (l.perform .reset) := by
  refine .idle ?_ rfl rfl rfl
  show IsIdle c l.session.reset
  cases h with
  | idle h => exact h.reset
  | playing t hread h => exact h.session.reset

theorem Kept.perform {c : Config} (hc : 0 < c.maxMicroSteps) {l : Ledger} (h : Kept c l)
    {op : Operation} (hop : op ≠ .reset) : Kept c (l.perform op) := by
  obtain ⟨hsession, hcaptured, hsteps⟩ := l.perform_of_ne_reset hop
  cases h with
  | playing t hread h =>
    refine .playing t ?_ ?_
    · show Trace.read (if l.session.execution.started then l.source else l.session.source) = .ok t
      rw [h.session.playing.started, if_pos rfl]
      exact hread
    · rw [hsession, hcaptured, hsteps]
      exact h.perform hc hop
  | idle h hnothing hnone htotal =>
    rw [hnothing, List.nil_append] at hcaptured
    rw [hnone, Nat.zero_add] at hsteps
    by_cases hstarts : op.starts = true ∧ ∃ t, Trace.read l.session.source = .ok t
    · obtain ⟨hstarts, t, hread⟩ := hstarts
      refine .playing t ?_ ?_
      · show Trace.read (if l.session.execution.started then l.source else l.session.source) = .ok t
        rw [h.idle.started, if_neg Bool.false_ne_true]
        exact hread
      · rw [hsession, hcaptured, hsteps]
        exact h.paced_perform hc hread hstarts
    · -- no run is started
      have hidle : IsIdle c (l.session.perform op) := by
        refine h.perform fun ho => ?_
        cases hread : Trace.read l.session.source with
        | error e => exact ⟨e, rfl⟩
        | ok t => exact absurd ⟨ho, t, hread⟩ hstarts
      refine .idle (hsession ▸ hidle) ?_ ?_ ?_
      · rw [hcaptured]
        exact Session.newlyCaptured_of_eq (hidle.idle.captures.trans h.idle.captures.symm)
      · rw [hsteps]
        unfold Session.newlyStepped
        rw [hidle.idle.started]
        rfl
      · rw [hsession]
        exact h.totalSteps_perform hc hop hidle htotal

/-- The ledger is kept over all operations. The induction is on the operations. -/
theorem Kept.run {c : Config} (hc : 0 < c.maxMicroSteps) {l : Ledger} (h : Kept c l)
    (ops : List Operation) : Kept c (l.run ops) := by
  induction ops generalizing l with
  | nil => exact h
  | cons op ops ih =>
    refine ih ?_
    by_cases hop : op = .reset
    · rw [hop]
      exact h.reset
    · exact h.perform hc hop

theorem kept_opened {c : Config} {s : Session} (hnew : Session.new? c = .ok s) :
    Kept c (opened s) := by
  obtain ⟨hidle, -⟩ := Session.isIdle_of_new? hnew
  obtain ⟨bounds, rfl⟩ := Session.eq_of_new? hnew
  exact .idle hidle rfl rfl rfl

end Ledger

/-- What a session shows of a source in some steps: copies of as many stops, as far as there are. -/
def Trace.shownBy (limits : PlayerLimits) (ceiling : Nat) (source : String) (steps : Nat) :
    List Snapshot :=
  match Trace.read source with
  | .ok t => t.copies ((t.reachedStops limits ceiling).take steps)
  | .error _ => []

namespace Ledger

theorem Kept.totalSteps_eq {c : Config} {l : Ledger} (h : Kept c l) :
    l.session.execution.counters.totalSteps = l.steps := by
  cases h with
  | idle h hcaptured hsteps htotal => rw [hsteps, htotal]
  | playing t hread h => exact h.paced.total

/-- What was gathered is what all the captures show. -/
theorem Kept.gathered_eq {c : Config} {l : Ledger} (h : Kept c l) :
    l.session.execution.gathered = .ofSnapshots l.captured
    ∧ l.captured.length = l.session.execution.history.captures := by
  cases h with
  | idle h hcaptured hsteps htotal =>
    rw [hcaptured]
    exact ⟨h.idle.gathered, h.idle.captures.symm⟩
  | playing t hread h => exact ⟨h.session.playing.gathered, h.session.playing.captures.symm⟩

theorem Kept.valid {c : Config} {l : Ledger} (h : Kept c l) : l.session.execution.history.Valid := by
  cases h with
  | idle h => exact h.idle.history
  | playing t hread h => exact h.session.playing.history

/-- Nothing is captured before a run is started. -/
theorem Kept.captured_eq_nil {c : Config} {l : Ledger} (h : Kept c l)
    (hstarted : l.session.execution.started = false) : l.captured = [] := by
  cases h with
  | idle h hcaptured => exact hcaptured
  | playing t hread h => exact nomatch hstarted.symm.trans h.session.playing.started

/-- What was captured comes in the order of its steps. -/
theorem Kept.increasing {c : Config} (hc : 0 < c.maxMicroSteps) {l : Ledger} (h : Kept c l) :
    (l.captured.map (·.position.stepNumber)).Pairwise (· < ·) := by
  cases h with
  | idle h hcaptured hsteps htotal =>
    rw [hcaptured]
    exact .nil
  | playing t hread h => exact h.session.playing.increasing hc

/-- And the captures are told by the source and the number of steps. -/
theorem Kept.gathered_eq_shownBy {c : Config} (hc : 0 < c.maxMicroSteps) {l : Ledger}
    (h : Kept c l) :
    l.session.execution.gathered
      = .ofSnapshots (Trace.shownBy c.player c.maxMicroSteps l.source l.steps) := by
  rw [h.gathered_eq.1]
  unfold Trace.shownBy
  cases h with
  | idle h hcaptured hsteps htotal =>
    rw [hcaptured, hsteps]
    cases Trace.read l.source <;> rfl
  | playing t hread h =>
    rw [hread, ← Gathered.ofSnapshots_bare l.captured, h.paced.copies_eq hc]

end Ledger

/-- Take any session with a valid configuration and do anything with it: start runs, let its loops move
at any time and in any order, step by hand, go back and forth, pause, reset. Then the call tree, the
baseline, the calls counted and the greatest depth are what all snapshots captured since the last reset
show, one after the other, also those that the history evicted or dropped. Going back, and going
forward where the history has a snapshot ahead, moves the cursor of the history and touches neither the
player nor anything else of the execution.

And take any other session, whose history may have another capacity, but whose player has the same
limits and whose steps have the same ceiling, and do anything else with that. If both run the same
source and it took as many steps in both, then they show the same forest and count the same calls, the
same depth and the same steps. -/
theorem gathered_of_captures {c : Config} {s : Session} (hnew : Session.new? c = .ok s)
    (ops : List Operation) :
    let l := (Ledger.opened s).run ops
    let x := l.session.execution
    l.session = s.run ops
    ∧ Gathered.mk x.baseline x.tracker x.counters.functionCalls x.counters.maxStackDepth
        = .ofSnapshots l.captured
    ∧ l.captured.length = x.history.captures
    ∧ x.counters.totalSteps = l.steps
    ∧ l.session.back.1.execution = { x with
        history := { x.history with cursor := l.session.back.1.execution.history.cursor } }
    ∧ (x.started = true → x.history.canStepForward = true →
        l.session.forward.1.execution = { x with
          history := { x.history with cursor := l.session.forward.1.execution.history.cursor } })
    ∧ ∀ {c' : Config} {s' : Session} (ops' : List Operation), Session.new? c' = .ok s' →
        c'.player = c.player → c'.maxMicroSteps = c.maxMicroSteps →
        let l' := (Ledger.opened s').run ops'
        let x' := l'.session.execution
        l'.source = l.source → l'.steps = l.steps →
        l'.session.forest = l.session.forest
        ∧ x'.counters.functionCalls = x.counters.functionCalls
        ∧ x'.counters.maxStackDepth = x.counters.maxStackDepth
        ∧ x'.counters.totalSteps = x.counters.totalSteps := by
  intro l x
  obtain ⟨-, hc⟩ := Session.isIdle_of_new? hnew
  have hkept : Ledger.Kept c l := (Ledger.kept_opened hnew).run hc ops
  obtain ⟨hgathered, hlength⟩ := hkept.gathered_eq
  refine ⟨Ledger.run_session _ ops, hgathered, hlength, hkept.totalSteps_eq,
    l.session.execution_back, Session.execution_forward_of_replay, ?_⟩
  intro c' s' ops' hnew' hplayer hceiling l' x' hsource hsteps
  obtain ⟨-, hc'⟩ := Session.isIdle_of_new? hnew'
  have hkept' : Ledger.Kept c' l' := (Ledger.kept_opened hnew').run hc' ops'
  have hsame : x'.gathered = x.gathered := by
    rw [hkept'.gathered_eq_shownBy hc', hkept.gathered_eq_shownBy hc, hplayer, hceiling, hsource,
      hsteps]
  refine ⟨?_, congrArg Gathered.functionCalls hsame, congrArg Gathered.maxStackDepth hsame, ?_⟩
  · exact congrArg Tracker.forest (congrArg Gathered.tracker hsame)
  · rw [hkept'.totalSteps_eq, hkept.totalSteps_eq, hsteps]

/-- A configuration that retains two snapshots. -/
def Config.cramped : Config := Config.standard.withMaxHistory 2

/-- A session with it. -/
def Session.cramped : Session :=
  ⟨.new Config.cramped.playback Session.standard.playback.bounds (.new Config.cramped)⟩

/-- A document of a trace in which a function is called and returns. -/
def Trace.oneCallText : String := "[[[1],[2],[3,0,\"\",[[\"f\"]]],[2],[4]]]"

/-- Three steps show the same call, whether they are taken one after the other or the user goes back and
forth between them until the history is full. -/
theorem gathered_of_oneCall :
    let straight := (Ledger.opened .standard).run
      [.setSource Trace.oneCallText, .start, .move (.begin 1), .forward, .forward]
    let wandering := (Ledger.opened .cramped).run
      [.setSource Trace.oneCallText, .forward, .forward, .back, .forward, .forward, .back]
    Session.new? .standard = .ok .standard ∧ Session.new? .cramped = .ok .cramped
    ∧ straight.steps = 3 ∧ wandering.steps = 3
    ∧ wandering.session.execution.history.retained.size < wandering.captured.length
    ∧ wandering.session.forest = straight.session.forest := by
  intro straight wandering
  have hnew : Session.new? .standard = .ok .standard := by rfl
  have hnew' : Session.new? .cramped = .ok .cramped := by rfl
  have hsteps : straight.steps = 3 := by decide +kernel
  have hsteps' : wandering.steps = 3 := by decide +kernel
  have hevicted : wandering.session.execution.history.retained.size < wandering.captured.length := by
    decide +kernel
  have hsource : wandering.source = straight.source := by decide +kernel
  obtain ⟨-, -, -, -, -, -, hsame⟩ := gathered_of_captures hnew
    [.setSource Trace.oneCallText, .start, .move (.begin 1), .forward, .forward]
  obtain ⟨hforest, -⟩ := hsame
    [.setSource Trace.oneCallText, .forward, .forward, .back, .forward, .forward, .back] hnew' rfl rfl
    hsource (hsteps'.trans hsteps.symm)
  exact ⟨hnew, hnew', hsteps, hsteps', hevicted, hforest⟩

end Retrace
