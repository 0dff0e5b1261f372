import Retrace.Proofs.Playback.Interleaving
import Retrace.Proofs.Playback.Order
import Retrace.Proofs.Playback.Reports
/-!
# What becomes of the result of a step

A call of the step function returns a result: there is more to do, there is not, or it failed. It may
return long after it was made, and what is made of its result depends on what happened in between.

As long as nothing cuts the latest run off (`Action.cuts`), a result is dropped in one case only: it
comes from a loop, and a newer run was started while its step was under way (`stands`). Every other
result is told to observers as it comes (`due`), so that the results told in a whole run are those of
its calls, in their order and each once (`account`). The step lemma is `act_reports`; what carries it
is that the run of a loop whose step is under way was replaced or is not cancelled (`Steady`).

Once there is no more to do no loop calls the step function again, and no step by hand asked for from
then on does. One that stands in line by then still does when its turn comes (`completed_after`).
-/

namespace Retrace

namespace Gate

theorem steppers_released (waiting : List Stepper) : (released waiting).steppers = waiting := by
  cases waiting <;> rfl

theorem steppers_joined (s : Stepper) (g : Gate) : (g.joined s).steppers = g.steppers ++ [s] := by
  cases g <;> rfl

end Gate

namespace Playback

/-- Whether an action cuts the latest run off. -/
def Action.cuts : Action → Bool
  | stop | reset | cancel => true
  | _ => false

/-- Whether an action may take a completion back. -/
def Action.reopens : Action → Bool
  | reset | toggle | resumeFromCompleted => true
  | _ => false

variable {σ : Type} {w : Workload σ} {p q : Playback σ}

/-! ## The calls and their results -/

open Classical in
/-- The call that returns within an action, and its result: the one under way, if it lands, or one that
takes no time. -/
noncomputable def returned? (w : Workload σ) (p : Playback σ) (a : Action) :
    Option (Stepper × StepOutcome) :=
  match a, p.gate with
  | .move .land, .stepping holder outcome _ _ => some (holder, outcome)
  | a, _ =>
    let attempt := w p.status.currentStep p.work
    if p.Begins a ∧ attempt.durationMs = 0 then (p.actor? a).map (·, attempt.outcome) else none

open Classical in
/-- What the step function itself tells observers in an action. -/
noncomputable def spoken (w : Workload σ) (p : Playback σ) (a : Action) : List Event :=
  if p.Begins a then (w p.status.currentStep p.work).events else []

/-- Whether a result of someone stands: that of a loop does until a newer run is started. -/
def stands (p : Playback σ) : Stepper → Bool
  | .loop run => run == p.run
  | .hand _ => true

/-- The results that observers are to be told in an action. -/
noncomputable def due (w : Workload σ) (p : Playback σ) (a : Action) : List Event :=
  match p.returned? w a with
  | some (s, outcome) => if p.stands s then p.verdict outcome else []
  | none => []

/-- The results that observers are to be told in several actions, and those that the step function
tells itself. -/
noncomputable def account (w : Workload σ) (p : Playback σ) : List Action → List Event
  | [] => []
  | a :: later => (p.spoken w a).filter Event.isResult ++ p.due w a ++ account w (p.act w a) later

/-! ## What an action comes to -/

/-- The second is the first but for its loops, its tickets and being held up. -/
structure Beside (p q : Playback σ) : Prop where
  work : q.work = p.work
  count : q.status.currentStep = p.status.currentStep
  completed : q.status.completed = p.status.completed
  run : q.run = p.run
  cancelled : q.cancelled = p.cancelled
  reports : p.Reports q []

/-- The latest run of the first is what it was, or a newer one was started. -/
def Uncut (p q : Playback σ) : Prop := p.run < q.run ∨ (q.run = p.run ∧ q.cancelled = p.cancelled)

theorem uncut_play (p : Playback σ) : p.Uncut p.play.1 := by
  cases hcompleted : p.status.completed with
  | true =>
    rw [play_of_completed hcompleted]
    exact Or.inr ⟨rfl, rfl⟩
  | false =>
    have hrun := (play_of_open hcompleted).2.1
    exact Or.inl (by omega)

theorem uncut_toggle (p : Playback σ) : p.Uncut p.toggle := by
  unfold toggle
  split
  · -- a reset is followed by a new run
    have hrun := (play_of_open (p := p.reset) rfl).2.1
    have hreset : p.reset.run = p.run := rfl
    exact Or.inl (by omega)
  · split
    · exact Or.inr ⟨rfl, rfl⟩
    · exact p.uncut_play

theorem uncut_resumeFromCompleted (p : Playback σ) : p.Uncut p.resumeFromCompleted.1 := by
  unfold resumeFromCompleted
  split <;> exact Or.inr ⟨rfl, rfl⟩

/-- Work whose steps tell nothing and last. -/
def enduring : Workload σ := fun _ x => ⟨x, [], .more, 1⟩

theorem takeStep_enduring (p : Playback σ) (s : Stepper) (waiting : List Stepper) :
    p.takeStep enduring s waiting = { p with gate := .stepping s .more (p.clock + 1) waiting } := by
  unfold takeStep enduring
  simp

theorem beside_approach (p : Playback σ) (s : Stepper) : p.Beside (p.approach enduring s) := by
  unfold approach
  rw [takeStep_enduring]
  split <;> exact ⟨rfl, rfl, rfl, rfl, rfl, reports_of_log_eq rfl⟩

theorem beside_goOn (p : Playback σ) (run : Nat) : p.Beside (p.goOn enduring run) := by
  unfold goOn
  split
  · exact p.beside_approach (.loop run)
  · exact ⟨rfl, rfl, rfl, rfl, rfl, .refl p⟩

/-- Under a step that has only begun, playback is what it was but for its loops. -/
theorem beside_move (p : Playback σ) {m : Move} (hm : m ≠ .land) : p.Beside (p.move enduring m) := by
  cases m with
  | land => exact absurd rfl hm
  | begin run =>
    have hgone := beside_goOn { p with fresh := p.fresh.erase run } run
    exact ⟨hgone.work, hgone.count, hgone.completed, hgone.run, hgone.cancelled, hgone.reports⟩
  | wake s =>
    have hgone := beside_goOn { p with sleeping := p.sleeping.erase s } s.run
    show p.Beside (p.wake enduring s)
    unfold wake
    simp only
    split
    · exact ⟨rfl, rfl, rfl, rfl, rfl, reports_of_log_eq rfl⟩
    · exact ⟨hgone.work, hgone.count, hgone.completed, hgone.run, hgone.cancelled, hgone.reports⟩
  | proceed =>
    show p.Beside (p.proceed enduring)
    unfold proceed
    split
    · rw [takeStep_enduring]
      exact ⟨rfl, rfl, rfl, rfl, rfl, reports_of_log_eq rfl⟩
    · simp only [takeStep_enduring]
      split
      · exact ⟨rfl, rfl, rfl, rfl, rfl, reports_of_log_eq rfl⟩
      · split <;> exact ⟨rfl, rfl, rfl, rfl, rfl, reports_of_log_eq rfl⟩
    · exact ⟨rfl, rfl, rfl, rfl, rfl, .refl p⟩

theorem beside_requestStep (p : Playback σ) : p.Beside (p.requestStep enduring).1 := by
  unfold requestStep
  simp only
  split
  · exact ⟨rfl, rfl, rfl, rfl, rfl, reports_of_log_eq rfl⟩
  · split
    · have hheld := (tellsStates_pause { p with tickets := p.tickets + 1 }).reports
      have hcame := beside_approach ({ p with tickets := p.tickets + 1 } : Playback σ).pause
        (.hand p.tickets)
      exact ⟨hcame.work, hcame.count, hcame.completed, hcame.run, hcame.cancelled,
        hcame.reports.after hheld⟩
    · have hcame := beside_approach { p with tickets := p.tickets + 1 } (.hand p.tickets)
      exact ⟨hcame.work, hcame.count, hcame.completed, hcame.run, hcame.cancelled, hcame.reports⟩

/-- What an action comes to that takes no step and ends none. -/
structure Aside (p : Playback σ) (a : Action) (q : Playback σ) : Prop where
  underWay : q.gate.underWay? = p.gate.underWay?
  reports : p.Reports q []
  completed : q.status.completed = true → p.status.completed = true
  kept : a.reopens = false → p.status.completed = true → q.status.completed = true
  uncut : a.cuts = false → p.Uncut q

/-- Playback that is completed is left so by everything that does not take a completion back. -/
theorem Still.aside {a : Action} (h : p.Still q) (hreports : p.Reports q [])
    (hkept : a.reopens = false → p.status.completed = true → q.status.completed = true)
    (huncut : a.cuts = false → p.Uncut q) : p.Aside a q :=
  ⟨congrArg _ h.gate_eq, hreports, h.completed, hkept, huncut⟩

theorem Beside.aside {a : Action} (h : p.Beside q)
    (hgate : q.gate.underWay? = p.gate.underWay?) : p.Aside a q :=
  ⟨hgate, h.reports, fun hc => h.completed.symm.trans hc, fun _ hc => h.completed.trans hc,
    fun _ => Or.inr ⟨h.run, h.cancelled⟩⟩

/-- What an action comes to. -/
inductive Doing (w : Workload σ) (p : Playback σ) (a : Action) : Prop where
  | aside (hnone : ¬ p.Begins a) (hreturned : p.returned? w a = none) (haside : p.Aside a (p.act w a))
  | takes (q : Playback σ) (s : Stepper) (waiting : List Stepper) (hbegins : p.Begins a)
      (hactor : p.actor? a = some s) (ha : p.act w a = q.takeStep w s waiting) (hbeside : p.Beside q)
      (hheeds : q.heeds s = true)
  | lands (holder : Stepper) (outcome : StepOutcome) (waiting : List Stepper)
      (hunderWay : p.gate.underWay? = some holder) (hland : a = .move .land)
      (hreturned : p.returned? w a = some (holder, outcome))
      (ha : p.act w a = p.settle holder outcome waiting)

theorem returned?_of_not_begins {a : Action} (h : ¬ p.Begins a) (ha : a ≠ .move .land) :
    p.returned? w a = none := by
  unfold returned?
  split
  · exact absurd rfl ha
  · exact if_neg fun hb => h hb.1

theorem not_begins_land (p : Playback σ) : ¬ p.Begins (.move .land) := fun ⟨_, _, hne⟩ => hne rfl

theorem returned?_of_begins {a : Action} {s : Stepper} (h : p.Begins a) (hs : p.actor? a = some s) :
    p.returned? w a = if (w p.status.currentStep p.work).durationMs = 0 then
      some (s, (w p.status.currentStep p.work).outcome) else none := by
  unfold returned?
  split
  · exact absurd h p.not_begins_land
  · simp only [h, true_and, hs]
    rfl

/-- Actions that come to the same with every step function take no step. -/
theorem doing_of_const {a : Action} {q : Playback σ} (hq : ∀ w, p.act w a = q)
    (ha : a ≠ .move .land) (h : p.Aside a q) : Doing w p a := by
  have hnone : ¬ p.Begins a := fun ⟨w, w', hne⟩ => hne ((hq w).trans (hq w').symm)
  rw [← hq w] at h
  exact .aside hnone (returned?_of_not_begins hnone ha) h

/-- Whatever someone does, it is to take a step or not, and what it is besides can be seen under a step
function that tells nothing. -/
theorem doing_of_call {a : Action} {s : Stepper} (hs : p.actor? a = some s)
    (hcall : Call p s fun w => p.act w a) (ha : a ≠ .move .land)
    (hbeside : p.Beside (p.act enduring a)) : Doing w p a := by
  cases hcall with
  | never q hq hgate =>
    rw [hq] at hbeside
    exact doing_of_const hq ha (hbeside.aside hgate)
  | once q waiting hq hwork hcount hidle hloop =>
    rw [hq, takeStep_enduring] at hbeside
    obtain ⟨-, -, hcompleted, hrun, hcancelled, hreports⟩ := hbeside
    have hbegins : p.Begins a := by
      obtain ⟨w, w', hne⟩ := exists_takeStep_ne q s waiting
      exact ⟨w, w', by rwa [hq w, hq w']⟩
    refine .takes q s waiting hbegins hs (hq w)
      ⟨hwork, hcount, hcompleted, hrun, hcancelled, hreports⟩ ?_
    cases s with
    | hand ticket => rfl
    | loop run =>
      obtain ⟨hlatest, hgoing⟩ := isLive_iff.mp (hloop run rfl).1
      exact isLive_iff.mpr ⟨hlatest.trans hrun.symm, hcancelled.trans hgoing⟩

theorem doing_land (w : Workload σ) (p : Playback σ) : Doing w p (.move .land) := by
  cases hgate : p.gate with
  | stepping holder outcome finish waiting =>
    refine .lands holder outcome waiting (by rw [hgate]; rfl) rfl ?_ ?_
    · unfold returned?
      rw [hgate]
    · show p.land = _
      unfold land
      rw [hgate]
  | free | granted =>
    -- no step is under way
    have hsame : p.act w (.move .land) = p := by
      show p.land = p
      unfold land
      rw [hgate]
    refine .aside p.not_begins_land ?_ ?_
    · unfold returned?
      rw [hgate]
      exact if_neg fun hb => p.not_begins_land hb.1
    · rw [hsame]
      exact ⟨rfl, .refl p, id, fun _ => id, fun _ => Or.inr ⟨rfl, rfl⟩⟩

theorem doing (w : Workload σ) (p : Playback σ) (a : Action) : Doing w p a := by
  cases a with
  | play =>
    have hkept : p.status.completed = true → p.play.1.status.completed = true := by
      intro hcompleted
      rw [play_of_completed hcompleted]
      exact hcompleted
    exact doing_of_const (fun _ => rfl) nofun
      (p.still_play.aside p.tellsStates_play.reports (fun _ => hkept) fun _ => p.uncut_play)
  | toggle =>
    exact doing_of_const (fun _ => rfl) nofun
      (p.still_toggle.aside p.tellsStates_toggle.reports nofun fun _ => p.uncut_toggle)
  | resumeFromCompleted =>
    exact doing_of_const (fun _ => rfl) nofun (p.still_resumeFromCompleted.aside
      p.tellsStates_resumeFromCompleted.reports nofun fun _ => p.uncut_resumeFromCompleted)
  | pause =>
    exact doing_of_const (fun _ => rfl) nofun
      (p.still_pause.aside p.tellsStates_pause.reports (fun _ => id) fun _ => Or.inr ⟨rfl, rfl⟩)
  | stop =>
    exact doing_of_const (fun _ => rfl) nofun ⟨rfl, p.tellsStates_stop.reports, id, fun _ => id, nofun⟩
  | reset =>
    exact doing_of_const (fun _ => rfl) nofun (p.still_reset.aside p.tellsStates_reset.reports nofun nofun)
  | cancel =>
    exact doing_of_const (fun _ => rfl) nofun ⟨rfl, reports_of_log_eq rfl, id, fun _ => id, nofun⟩
  | setSpeed | setTurbo | elapseTo =>
    exact doing_of_const (fun _ => rfl) nofun
      ⟨rfl, reports_of_log_eq rfl, id, fun _ => id, fun _ => Or.inr ⟨rfl, rfl⟩⟩
  | lineUp s =>
    exact doing_of_const (fun _ => rfl) nofun ⟨Gate.underWay?_joined s p.gate,
      reports_of_log_eq rfl, id, fun _ => id, fun _ => Or.inr ⟨rfl, rfl⟩⟩
  | step => exact doing_of_call rfl p.call_requestStep nofun p.beside_requestStep
  | move m =>
    by_cases hland : m = .land
    · rw [hland]
      exact doing_land w p
    · have hne : Action.move m ≠ .move .land := fun he => hland (Action.move.inj he)
      have hbeside := p.beside_move hland
      rcases p.act_cases hne with ⟨q, hq, hgate⟩ | ⟨s, hs, hcall⟩
      · have hconst : p.move enduring m = q := hq enduring
        rw [hconst] at hbeside
        exact doing_of_const hq hne (hbeside.aside hgate)
      · exact doing_of_call hs hcall hne hbeside

/-! ## Results are told as they come -/

/-- A loop whose step is under way is of a run that was replaced, or is not cancelled. -/
def Steady (p : Playback σ) : Prop := ∀ run, p.gate.underWay? = some (.loop run) →
  run ≤ p.run ∧ (run = p.run → p.cancelled = false)

theorem steady_of_idle (h : p.gate.underWay? = none) : p.Steady := fun _ hrun =>
  nomatch h.symm.trans hrun

theorem Steady.of_uncut (h : p.Steady) (huncut : p.Uncut q)
    (hgate : q.gate.underWay? = p.gate.underWay?) : q.Steady := by
  intro run hrun
  rw [hgate] at hrun
  obtain ⟨hle, hgoing⟩ := h run hrun
  rcases huncut with hnewer | ⟨hsame, hcancelled⟩
  · exact ⟨by omega, fun hlatest => by omega⟩
  · exact ⟨by omega, fun hlatest => hcancelled.trans (hgoing (hlatest.trans hsame))⟩

/-- The step of a loop begins while its run is live. -/
theorem steady_takeStep {s : Stepper} (hheeds : p.heeds s = true) (waiting : List Stepper) :
    (p.takeStep w s waiting).Steady := by
  intro run hrun
  rw [underWay?_takeStep] at hrun
  split at hrun
  · cases hrun
  · rename_i hlasts
    obtain rfl := Option.some.inj hrun
    obtain ⟨hlatest, hgoing⟩ := isLive_iff.mp hheeds
    unfold takeStep
    simp only [hlasts, if_false]
    exact ⟨Nat.le_of_eq hlatest, fun _ => hgoing⟩

/-- While nothing cut its run off, the step of a loop counts if it stands. -/
theorem Steady.heeds_eq (h : p.Steady) {holder : Stepper} (hgate : p.gate.underWay? = some holder) :
    p.heeds holder = p.stands holder := by
  cases holder with
  | hand ticket => rfl
  | loop run =>
    have hgoing := (h run hgate).2
    show p.isLive run = (run == p.run)
    unfold isLive
    by_cases hlatest : run = p.run
    · rw [hgoing hlatest]
      simp
    · simp [hlatest]

theorem stands_of_heeds {s : Stepper} (h : p.heeds s = true) : p.stands s = true := by
  cases s with
  | hand ticket => rfl
  | loop run => exact beq_iff_eq.mpr (isLive_iff.mp h).1

theorem Beside.stands_eq (h : p.Beside q) (s : Stepper) : q.stands s = p.stands s := by
  unfold stands
  rw [h.run]

theorem Steady.act (h : p.Steady) {a : Action} (ha : a.cuts = false) : (p.act w a).Steady := by
  cases doing w p a with
  | aside hnone hreturned haside => exact h.of_uncut (haside.uncut ha) haside.underWay
  | takes q s waiting hbegins hactor htakes hbeside hheeds =>
    rw [htakes]
    exact steady_takeStep hheeds waiting
  | lands holder outcome waiting hunderWay hland =>
    rw [hland]
    exact steady_of_idle p.underWay?_land

/-- An action tells the results that are due, after those that the step function tells itself. -/
theorem act_reports (h : p.Steady) (a : Action) :
    p.Reports (p.act w a) ((p.spoken w a).filter Event.isResult ++ p.due w a) := by
  unfold due
  cases doing w p a with
  | aside hnone hreturned haside =>
    unfold spoken
    rw [hreturned, if_neg hnone]
    exact haside.reports
  | takes q s waiting hbegins hactor htakes hbeside hheeds =>
    -- a step that is taken counts, and is over if it takes no time
    have htold := (reports_takeStep (w := w) q s waiting).after hbeside.reports
    have hstands : p.stands s = true := hbeside.stands_eq s ▸ stands_of_heeds hheeds
    have hverdict : ∀ outcome, q.verdict outcome = p.verdict outcome := by
      intro outcome
      cases outcome with
      | more | failed => rfl
      | finished =>
        unfold verdict
        rw [hbeside.completed]
    rw [hbeside.work, hbeside.count, hverdict, hheeds, if_pos rfl] at htold
    unfold spoken
    rw [htakes, returned?_of_begins hbegins hactor, if_pos hbegins]
    split at htold
    · rename_i hinstant
      rw [if_pos hinstant]
      simp only [hstands, if_true]
      exact htold
    · rename_i hlasts
      rw [if_neg hlasts]
      exact htold
  | lands holder outcome waiting hunderWay hland hreturned hsettled =>
    have hnone : ¬ p.Begins a := hland ▸ p.not_begins_land
    have htold := p.reports_settle holder outcome waiting
    rw [h.heeds_eq hunderWay] at htold
    unfold spoken
    rw [hsettled, hreturned, if_neg hnone]
    exact htold

/-- The induction is on the actions; that the loop whose step is under way is steady goes with it. -/
theorem after_reports (h : p.Steady) {actions : List Action}
    (huncut : ∀ a ∈ actions, a.cuts = false) :
    p.Reports (p.after w actions) (p.account w actions) := by
  induction actions generalizing p with
  | nil => exact .refl p
  | cons a later ih =>
    have hfirst := act_reports (w := w) h a
    have hrest := ih (h.act (w := w) (huncut a List.mem_cons_self))
      fun b hb => huncut b (List.mem_cons_of_mem a hb)
    exact hfirst.trans hrest

theorem Steady.after (h : p.Steady) {actions : List Action}
    (huncut : ∀ a ∈ actions, a.cuts = false) : (p.after w actions).Steady := by
  induction actions generalizing p with
  | nil => exact h
  | cons a later ih =>
    exact ih (h.act (huncut a List.mem_cons_self)) fun b hb => huncut b (List.mem_cons_of_mem a hb)

/-! ## Completion -/

theorem completed_complete (p : Playback σ) : p.complete.status.completed = true := by
  unfold complete
  split
  · assumption
  · rfl

theorem completed_afterLoopStep_iff (p : Playback σ) (run : Nat) (outcome : StepOutcome) :
    (p.afterLoopStep run outcome).status.completed = true
      ↔ p.status.completed = true ∨ (p.isLive run = true ∧ outcome = .finished) := by
  unfold afterLoopStep
  by_cases hlive : p.isLive run = true
  · rw [if_pos hlive]
    cases outcome with
    | more => simp [sleep]
    | finished => simp [hlive, completed_complete]
    | failed e => simp [fail, stop, notify, enterState]
  · rw [if_neg hlive]
    simp [hlive]

theorem completed_afterHandStep_iff (p : Playback σ) (ticket : Nat) (outcome : StepOutcome) :
    (p.afterHandStep ticket outcome).status.completed = true
      ↔ p.status.completed = true ∨ outcome = .finished := by
  unfold afterHandStep answer
  cases outcome with
  | more => simp
  | finished => simp [completed_complete]
  | failed e => simp [fail, stop, notify, enterState]

/-- A step that counts and finds no more to do completes playback, and nothing that comes of a step
takes a completion back. -/
theorem completed_settle_iff (p : Playback σ) (holder : Stepper) (outcome : StepOutcome)
    (waiting : List Stepper) : (p.settle holder outcome waiting).status.completed = true
      ↔ p.status.completed = true ∨ (p.heeds holder = true ∧ outcome = .finished) := by
  rw [← p.counted_completed outcome]
  unfold settle heeds
  cases holder with
  | loop run => exact completed_afterLoopStep_iff _ run outcome
  | hand ticket => simpa using completed_afterHandStep_iff _ ticket outcome

theorem gate_settle (p : Playback σ) (holder : Stepper) (outcome : StepOutcome)
    (waiting : List Stepper) : (p.settle holder outcome waiting).gate = .released waiting := by
  unfold settle
  cases holder with
  | loop run => exact (settled_afterLoopStep _ run outcome).gate_eq
  | hand ticket => exact (settled_afterHandStep _ ticket outcome).gate_eq

/-- A step taken by someone whose step counts completes playback if it takes no time and finds no more
to do. -/
theorem completed_takeStep_iff {s : Stepper} (h : p.heeds s = true) (waiting : List Stepper) :
    (p.takeStep w s waiting).status.completed = true ↔ p.status.completed = true ∨
      ((w p.status.currentStep p.work).durationMs = 0
        ∧ (w p.status.currentStep p.work).outcome = .finished) := by
  unfold takeStep
  generalize w p.status.currentStep p.work = a
  simp only
  split
  · rename_i hinstant
    have hheeds : ({ p with work := a.work, log := p.log ++ a.events.toArray } : Playback σ).heeds s
        = true := h
    rw [completed_settle_iff, hheeds]
    simp [hinstant]
  · rename_i hlasts
    simp [hlasts]

/-- What is completed stays so unless the completion is taken back. -/
theorem completed_act_of_completed {a : Action} (ha : a.reopens = false)
    (h : p.status.completed = true) : (p.act w a).status.completed = true := by
  cases doing w p a with
  | aside hnone hreturned haside => exact haside.kept ha h
  | takes q s waiting hbegins hactor htakes hbeside hheeds =>
    rw [htakes]
    exact (completed_takeStep_iff hheeds waiting).mpr (Or.inl (hbeside.completed.trans h))
  | lands holder outcome waiting hunderWay hland hreturned hsettled =>
    rw [hsettled]
    exact (p.completed_settle_iff holder outcome waiting).mpr (Or.inl h)

/-- A result that stands and says that there is no more to do leaves playback completed, and nothing
else completes it. -/
theorem Steady.completed_act (h : p.Steady) (a : Action) :
    ((p.act w a).status.completed = true → p.status.completed = true ∨
      ∃ s, p.returned? w a = some (s, .finished) ∧ p.stands s = true) ∧
    (∀ s, p.returned? w a = some (s, .finished) → p.stands s = true →
      (p.act w a).status.completed = true) := by
  cases doing w p a with
  | aside hnone hreturned haside =>
    refine ⟨fun hc => Or.inl (haside.completed hc), fun s hs => ?_⟩
    cases hreturned.symm.trans hs
  | takes q s waiting hbegins hactor htakes hbeside hheeds =>
    have hiff := completed_takeStep_iff (w := w) hheeds waiting
    rw [hbeside.completed, hbeside.work, hbeside.count] at hiff
    rw [htakes, returned?_of_begins hbegins hactor, hiff]
    refine ⟨fun hc => hc.imp_right fun hover => ?_, fun s' hreturned _ => ?_⟩
    · obtain ⟨hinstant, hfinished⟩ := hover
      refine ⟨s, ?_, hbeside.stands_eq s ▸ stands_of_heeds hheeds⟩
      rw [if_pos hinstant, hfinished]
    · split at hreturned
      · rename_i hinstant
        exact Or.inr ⟨hinstant, (Prod.mk.inj (Option.some.inj hreturned)).2⟩
      · cases hreturned
  | lands holder outcome waiting hunderWay hland hreturned hsettled =>
    have hiff := p.completed_settle_iff holder outcome waiting
    rw [h.heeds_eq hunderWay] at hiff
    rw [hsettled, hreturned, hiff]
    refine ⟨fun hc => hc.imp_right fun hover => ?_, fun s hover hstands => ?_⟩
    · obtain ⟨hstands, hfinished⟩ := hover
      exact ⟨holder, by rw [hfinished], hstands⟩
    · obtain ⟨rfl, rfl⟩ := Prod.mk.inj (Option.some.inj hover)
      exact Or.inr ⟨hstands, rfl⟩

/-- Playback that is completed has told so. -/
def Announced (p : Playback σ) : Prop :=
  p.status.completed = true → Event.completed ∈ p.log.toList

/-- What was told before is still told. -/
theorem Reports.mem {results : List Event} (h : p.Reports q results) {e : Event}
    (he : e ∈ p.log.toList ∨ e ∈ results) : e ∈ q.log.toList := by
  obtain ⟨events, hlog, rfl⟩ := h
  rw [hlog, List.mem_append]
  exact he.imp_right fun hmem => (List.mem_filter.mp hmem).1

theorem Announced.act (h : p.Announced) (hsteady : p.Steady) (a : Action) :
    (p.act w a).Announced := by
  intro hcompleted
  apply (act_reports (w := w) hsteady a).mem
  by_cases hbefore : p.status.completed = true
  · exact Or.inl (h hbefore)
  · -- the result that completed it is told
    obtain ⟨s, hreturned, hstands⟩ :=
      ((hsteady.completed_act a).1 hcompleted).resolve_left hbefore
    right
    rw [List.mem_append]
    right
    unfold due verdict
    rw [hreturned]
    simp [hstands, hbefore]

theorem Announced.after (h : p.Announced) (hsteady : p.Steady) {actions : List Action}
    (huncut : ∀ a ∈ actions, a.cuts = false) : (p.after w actions).Announced := by
  induction actions generalizing p with
  | nil => exact h
  | cons a later ih =>
    exact ih (h.act hsteady a) (hsteady.act (huncut a List.mem_cons_self))
      fun b hb => huncut b (List.mem_cons_of_mem a hb)

/-! ## After completion -/

theorem goOn_of_completed (h : p.status.completed = true) (run : Nat) : p.goOn w run = p := by
  have hover : p.status.isRunning = false := by
    unfold Status.isRunning
    simp [h]
  unfold goOn
  rw [hover, Bool.and_false, if_neg Bool.false_ne_true]

theorem steppers_takeStep (p : Playback σ) (s : Stepper) (waiting : List Stepper) :
    (p.takeStep w s waiting).gate.steppers ⊆ s :: waiting := by
  unfold takeStep
  simp only
  split
  · rw [gate_settle, Gate.steppers_released]
    exact List.subset_cons_self s waiting
  · exact List.Subset.refl _

/-- Nobody gets in line at the gate of completed playback by a move. -/
theorem steppers_move (h : p.status.completed = true) (m : Move) :
    (p.move w m).gate.steppers ⊆ p.gate.steppers := by
  cases m with
  | begin run =>
    show (p.begin w run).gate.steppers ⊆ _
    unfold begin
    rw [goOn_of_completed (p := { p with fresh := p.fresh.erase run }) h]
    exact List.Subset.refl _
  | wake s =>
    show (p.wake w s).gate.steppers ⊆ _
    unfold wake
    simp only
    split
    · exact List.Subset.refl _
    · rw [goOn_of_completed (p := { p with sleeping := p.sleeping.erase s }) h]
      exact List.Subset.refl _
  | proceed =>
    show (p.proceed w).gate.steppers ⊆ _
    unfold proceed
    cases hgate : p.gate with
    | free | stepping =>
      simp only [hgate]
      exact List.Subset.refl _
    | granted holder waiting =>
      cases holder with
      | hand ticket => exact p.steppers_takeStep _ waiting
      | loop run =>
        simp only
        split
        · exact p.steppers_takeStep _ waiting
        · have hreleased : (Gate.released waiting).steppers ⊆ (Gate.granted (.loop run) waiting).steppers := by
            rw [Gate.steppers_released]
            exact List.subset_cons_self _ waiting
          split <;> exact hreleased
  | land =>
    show p.land.gate.steppers ⊆ _
    unfold land
    cases hgate : p.gate with
    | free | granted =>
      simp only [hgate]
      exact List.Subset.refl _
    | stepping holder outcome finish waiting =>
      simp only
      rw [gate_settle, Gate.steppers_released]
      exact List.subset_cons_self holder waiting

/-- While playback is completed only who is in line already will be at the gate, and who gets in line
there without asking for a step. -/
theorem mem_steppers_act (h : p.status.completed = true) {a : Action} (ha : a.reopens = false)
    {s : Stepper} (hs : s ∈ (p.act w a).gate.steppers) : s ∈ p.gate.steppers ∨ a = .lineUp s := by
  cases a with
  | reset | toggle | resumeFromCompleted => cases ha
  | play =>
    rw [show p.act w .play = p from play_of_completed h] at hs
    exact Or.inl hs
  | pause | stop | cancel | setSpeed | setTurbo | elapseTo => exact Or.inl hs
  | step =>
    have hanswered : (p.act w .step).gate = p.gate := by
      show (p.requestStep w).1.gate = p.gate
      unfold requestStep
      simp only
      rw [if_pos h]
      rfl
    rw [hanswered] at hs
    exact Or.inl hs
  | lineUp s' =>
    have hs : s ∈ (p.gate.joined s').steppers := hs
    rw [Gate.steppers_joined, List.mem_append, List.mem_singleton] at hs
    exact hs.imp_right fun he => congrArg Action.lineUp he.symm
  | move m => exact Or.inl (p.steppers_move h m hs)

/-- The induction is on the actions since the completion. -/
theorem completed_after (h : p.status.completed = true) {later : List Action}
    (hlater : ∀ a ∈ later, a.reopens = false) :
    (p.after w later).status.completed = true ∧ ∀ s ∈ (p.after w later).gate.steppers,
      s ∈ p.gate.steppers ∨ .lineUp s ∈ later := by
  induction later generalizing p with
  | nil => exact ⟨h, fun s hs => Or.inl hs⟩
  | cons a later ih =>
    have ha := hlater a List.mem_cons_self
    obtain ⟨hstays, hline⟩ := ih (completed_act_of_completed (w := w) ha h)
      fun b hb => hlater b (List.mem_cons_of_mem a hb)
    refine ⟨hstays, fun s hs => ?_⟩
    rcases hline s hs with hthere | hlined
    · rcases mem_steppers_act h ha hthere with hbefore | hlined
      · exact Or.inl hbefore
      · exact Or.inr (hlined ▸ List.mem_cons_self)
    · exact Or.inr (List.mem_cons_of_mem a hlined)

/-- Only a step by hand whose turn it is at the gate is taken while playback is completed. -/
theorem Begins.of_completed (h : p.status.completed = true) {a : Action} (hbegins : p.Begins a) :
    ∃ ticket, p.actor? a = some (.hand ticket) ∧ .hand ticket ∈ p.gate.steppers := by
  obtain ⟨-, s, hs, hloop⟩ := hbegins.exists_actor
  have hover : p.status.isRunning ≠ true := by
    unfold Status.isRunning
    simp [h]
  cases s with
  | loop run => exact absurd (hloop run rfl).2 hover
  | hand ticket =>
    refine ⟨ticket, hs, ?_⟩
    cases a with
    | step =>
      -- a step that is asked for now is not taken
      obtain ⟨w, w', hne⟩ := hbegins
      refine absurd ?_ hne
      show (p.requestStep w).1 = (p.requestStep w').1
      unfold requestStep
      simp only
      rw [if_pos h, if_pos h]
    | move m =>
      cases m with
      | proceed =>
        unfold actor? at hs
        cases hgate : p.gate with
        | granted holder waiting =>
          rw [hgate] at hs
          obtain rfl := Option.some.inj hs
          exact List.mem_cons_self
        | free | stepping =>
          rw [hgate] at hs
          cases hs
      | begin | wake | land => cases hs
    | _ => cases hs

/-! ## In any order -/

/-- In whatever order controls and loops act on playback, however long steps last, and as long as
nothing cuts the latest run off: the results that observers are told are those that the calls of the
step function return, each told once and as it comes, but for those of loops whose run was replaced
meanwhile. Once such a result says that there is no more to do, playback is completed and observers have
been told so; and until a completion is taken back it stays completed, no loop calls the step function
again, and a step by hand does so only if it stood in line at the gate by then or gets in line there
without asking for a step. -/
theorem results_are_told (w : Workload σ) (c : PlaybackConfig) (bounds : DelayBounds) (x : σ)
    (actions : List Action) (huncut : ∀ a ∈ actions, a.cuts = false) :
    let p := new c bounds x
    let q := p.after w actions
    q.log.toList.filter Event.isResult = p.account w actions ∧
    ∀ a s, a.cuts = false → q.returned? w a = some (s, .finished) → q.stands s = true →
      let r := q.act w a
      Event.completed ∈ r.log.toList ∧
      ∀ later, (∀ b ∈ later, b.reopens = false) →
        (r.after w later).status.completed = true ∧
        ∀ b, (r.after w later).Begins b → ∃ ticket, (r.after w later).actor? b = some (.hand ticket)
          ∧ (.hand ticket ∈ r.gate.steppers ∨ .lineUp (.hand ticket) ∈ later) := by
  intro p q
  have hfirst : p.Steady := steady_of_idle rfl
  have hsilent : p.Announced := nofun
  have hsteady : q.Steady := hfirst.after huncut
  have hannounced : q.Announced := hsilent.after hfirst huncut
  refine ⟨?_, fun a s ha hreturned hstands => ?_⟩
  · obtain ⟨events, hlog, hresults⟩ := after_reports hfirst huncut
    rw [← hresults, hlog]
    rfl
  · intro r
    have hcompleted : r.status.completed = true := (hsteady.completed_act a).2 s hreturned hstands
    refine ⟨hannounced.act hsteady a hcompleted, fun later hlater => ?_⟩
    obtain ⟨hstays, hline⟩ := completed_after (w := w) hcompleted hlater
    refine ⟨hstays, fun b hb => ?_⟩
    obtain ⟨ticket, hactor, hthere⟩ := hb.of_completed hstays
    exact ⟨ticket, hactor, hline _ hthere⟩

/-- Work that fails in its first step and has no more to do in its second, each of which lasts. -/
def failing : Workload Nat := fun _ x =>
  ⟨x + 1, [], if x = 0 then .failed (.runtime "boom") else .finished, 5⟩

/-- A loop that nobody disturbs fails, and a step by hand after that finds no more to do: one is told as
the other, and once the latter is, nobody calls the step function any more. -/
theorem failure_is_told :
    let p := new .standard ⟨10, 2000, by decide⟩ 0
    let actions : List Action := [.play, .move (.begin 1), .move .land, .step]
    let q := p.after failing actions
    (∀ a ∈ actions, a.cuts = false) ∧ p.account failing actions = [.failed (.runtime "boom")] ∧
    q.returned? failing (.move .land) = some (.hand 0, .finished) ∧
    Event.completed ∈ q.land.log.toList ∧ ∀ b, ¬ q.land.Begins b := by
  intro p actions q
  have huncut : ∀ a ∈ actions, a.cuts = false := by decide
  have hreturned : q.returned? failing (.move .land) = some (.hand 0, .finished) := rfl
  obtain ⟨htold, hcompletes⟩ :=
    results_are_told failing .standard ⟨10, 2000, by decide⟩ 0 actions huncut
  obtain ⟨hcompleted, hlater⟩ := hcompletes (.move .land) (.hand 0) rfl hreturned rfl
  obtain ⟨-, hquiet⟩ := hlater [] (by simp)
  refine ⟨huncut, htold.symm.trans (by cbv), hreturned, hcompleted, fun b hb => ?_⟩
  obtain ⟨ticket, -, hthere⟩ := hquiet b hb
  have hempty : q.land.gate.steppers = [] := by rfl
  rcases hthere with hline | hlined
  · exact List.not_mem_nil (hempty ▸ hline)
  · exact List.not_mem_nil hlined

/-- Two results that nobody is told of or heeds. A loop's step fails; but while it was under way playback
was held up and started anew, so the failure is told to nobody, and in the end playback is completed as
if nothing had failed. And a loop's step finds no more to do; but a step by hand was asked for while it
was under way, and the step function is called once more although playback is completed. -/
theorem results_unheeded :
    let p := new .standard ⟨10, 2000, by decide⟩ 0
    (let flight : List Action := [.play, .move (.begin 1), .pause, .play]
      let rest : List Action := [.move .land, .move (.begin 2), .move .land]
      (∀ a ∈ flight ++ rest, a.cuts = false) ∧
      (p.after failing flight).returned? failing (.move .land)
        = some (.loop 1, .failed (.runtime "boom")) ∧
      let q := p.after failing (flight ++ rest)
      q.status.completed = true ∧ q.next = .never
        ∧ q.log.toList.filter Event.isResult = [.completed]) ∧
    (let flight : List Action := [.play, .move (.begin 1), .step]
      let q := p.after (fun _ x => ⟨x + 1, [], .finished, 5⟩) flight
      (∀ a ∈ flight, a.cuts = false) ∧
      q.returned? (fun _ x => ⟨x + 1, [], .finished, 5⟩) (.move .land) = some (.loop 1, .finished) ∧
      q.land.status.completed = true ∧ q.land.Begins (.move .proceed)) := by
  intro p
  refine ⟨⟨by decide, rfl, by cbv, by cbv, by cbv⟩, by decide, rfl, by cbv, ?_⟩
  exact exists_takeStep_ne _ (.hand 0) []

end Playback

end Retrace
