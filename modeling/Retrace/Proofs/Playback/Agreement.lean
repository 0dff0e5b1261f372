import Retrace.Proofs.Playback.Results
/-!
# State, flags and counters agree

The state that playback is in and its three flags are written in different places, by the controls, by
loops and by steps by hand, and a result may come in long after the flags have changed. They agree
nevertheless (`Status.Agrees`), and both counters count the same: the results with more to do that came
in since the count was last started over (`tally`).

What happens in an action is put together as a `Course`, from what is told in it and the status it ends
in. Only a reset starts the count over, and it does so after it has told that playback was stopped;
only a settled step counts or completes (`course_settle`); the rest enters states and tells of them.
-/

namespace Retrace

/-- Whether observers are told that there is no more to do. -/
def Event.isCompletion : Event → Bool
  | completed => true
  | _ => false

namespace Status

/-- The state last entered and the flags agree. -/
structure Agrees (s : Status) : Prop where
  apart : s.completed = true → s.playing = false
  playing : s.state = .playing → s.playing = true ∧ s.paused = false ∧ s.completed = false
  paused : s.state = .paused → s.paused = true
  completed : s.state = .completed → s.completed = true ∧ s.playing = false ∧ s.paused = false
  stopped : s.state = .stopped → s.playing = false ∧ s.paused = false
  idle : s.state = .idle → s.playing = false ∧ s.paused = false ∧ s.completed = false
  reset : s.state = .reset → s.playing = false ∧ s.paused = false ∧ s.completed = false

/-- State and flags agree, and both counters stand at `n`. -/
structure Sound (n : Nat) (s : Status) : Prop extends Agrees s where
  current_eq : s.currentStep = n
  total_eq : s.totalSteps = n

variable {s : Status} {n : Nat}

theorem sound_initial (speedMs : Nat) : (initial speedMs).Sound 0 :=
  ⟨⟨nofun, nofun, nofun, nofun, nofun, fun _ => ⟨rfl, rfl, rfl⟩, nofun⟩, rfl, rfl⟩

theorem Sound.play (h : s.Sound n) (hopen : s.completed = false) :
    { s with state := .playing, playing := true, paused := false }.Sound n :=
  ⟨⟨fun hc => (nomatch hopen.symm.trans hc), fun _ => ⟨rfl, rfl, hopen⟩, nofun, nofun, nofun, nofun,
    nofun⟩, h.current_eq, h.total_eq⟩

theorem Sound.pause (h : s.Sound n) : { s with state := .paused, paused := true }.Sound n :=
  ⟨⟨h.apart, nofun, fun _ => rfl, nofun, nofun, nofun, nofun⟩, h.current_eq, h.total_eq⟩

theorem Sound.stop (h : s.Sound n) :
    { s with state := .stopped, playing := false, paused := false }.Sound n :=
  ⟨⟨fun _ => rfl, nofun, nofun, nofun, fun _ => ⟨rfl, rfl⟩, nofun, nofun⟩, h.current_eq, h.total_eq⟩

theorem sound_reset (hplaying : s.playing = false) (hpaused : s.paused = false) :
    { s with state := .reset, currentStep := 0, totalSteps := 0, completed := false }.Sound 0 :=
  ⟨⟨nofun, nofun, nofun, nofun, nofun, nofun, fun _ => ⟨hplaying, hpaused, rfl⟩⟩, rfl, rfl⟩

theorem Sound.complete (h : s.Sound n) :
    { s with state := .completed, playing := false, paused := false, completed := true }.Sound n :=
  ⟨⟨fun _ => rfl, nofun, nofun, fun _ => ⟨rfl, rfl, rfl⟩, nofun, nofun, nofun⟩, h.current_eq,
    h.total_eq⟩

theorem Sound.resume (h : s.Sound n) :
    { s with state := .paused, completed := false, paused := true }.Sound n :=
  ⟨⟨nofun, nofun, fun _ => rfl, nofun, nofun, nofun, nofun⟩, h.current_eq, h.total_eq⟩

theorem Sound.countStep (h : s.Sound n) : s.countStep.Sound (n + 1) := by
  refine ⟨⟨h.apart, h.playing, h.paused, h.completed, h.stopped, h.idle, h.reset⟩, ?_, ?_⟩
  · exact congrArg (· + 1) h.current_eq
  · show max s.totalSteps (s.currentStep + 1) = n + 1
    rw [h.current_eq, h.total_eq]
    omega

theorem Sound.withSpeed (h : s.Sound n) (ms : Nat) : { s with speedMs := ms }.Sound n :=
  ⟨⟨h.apart, h.playing, h.paused, h.completed, h.stopped, h.idle, h.reset⟩, h.current_eq, h.total_eq⟩

end Status

namespace Playback

variable {σ : Type} {w : Workload σ} {p q r : Playback σ} {n m k : Nat}
  {own own' : List Event} {good : Status → Prop}

/-- How often playback was completed from the first to the second, if an action lies between them. -/
def newlyCompleted (p q : Playback σ) : Nat :=
  if p.status.completed = false ∧ q.status.completed = true then 1 else 0

/-- Whether an action starts the count of steps over. -/
def restarts (p : Playback σ) : Action → Bool
  | .reset => true
  | .toggle => p.status.completed
  | _ => false

/-- The results with more to do since the count was last started over, as they stand after an action. -/
noncomputable def counted (w : Workload σ) (p : Playback σ) (n : Nat) (a : Action) : Nat :=
  if p.restarts a then 0
  else
    match p.returned? w a with
    | some (_, .more) => n + 1
    | _ => n

/-- The same after several actions. -/
noncomputable def tally (w : Workload σ) : (p : Playback σ) → (n : Nat) → List Action → Nat
  | _, n, [] => n
  | p, n, a :: later => tally w (p.act w a) (p.counted w n a) later

/-- What a status shows that is told while the count is started over: first the old count, when
playback is stopped, and none from then on. -/
def Restarted (n : Nat) (s : Status) : Prop := s.Sound (if s.state = .stopped then n else 0)

/-- What a status shows that is told in an action, where the count before it is `n`. -/
def Shows (p : Playback σ) (n : Nat) (a : Action) (s : Status) : Prop :=
  if p.restarts a then Restarted n s else s.Sound n

/-- From the first to the second: the counters come to `m`, the statuses told are `good`, and a
completion is told for each that there was. What the step function tells itself is `own`. -/
structure Course (own : List Event) (good : Status → Prop) (m : Nat) (p q : Playback σ) : Prop where
  sound : q.status.Sound m
  told : ∃ events, q.log.toList = p.log.toList ++ events ∧
    (∀ s, .status s ∈ events → .status s ∈ own ∨ good s) ∧
    events.countP Event.isCompletion = own.countP Event.isCompletion + p.newlyCompleted q

theorem newlyCompleted_eq_zero (h : q.status.completed = true → p.status.completed = true) :
    p.newlyCompleted q = 0 := by
  refine if_neg fun hnew => ?_
  rw [h hnew.2] at hnew
  exact nomatch hnew.1

theorem newlyCompleted_congr (h : q.status.completed = p.status.completed) (r : Playback σ) :
    q.newlyCompleted r = p.newlyCompleted r := by
  unfold newlyCompleted
  rw [h]

/-- What happens without the step function. -/
theorem course_of_told (hsound : q.status.Sound m) {l : List Event}
    (hlog : q.log.toList = p.log.toList ++ l) (hgood : ∀ s, .status s ∈ l → good s)
    (hcount : l.countP Event.isCompletion = p.newlyCompleted q) : Course [] good m p q := by
  refine ⟨hsound, l, hlog, fun s hs => Or.inr (hgood s hs), ?_⟩
  rw [List.countP_nil, Nat.zero_add, hcount]

/-- Nothing is told, and nothing completed. -/
theorem course_of_log_eq (hsound : q.status.Sound m) (hlog : q.log = p.log)
    (hkept : q.status.completed = true → p.status.completed = true) : Course [] good m p q := by
  refine course_of_told hsound (l := []) ?_ nofun (newlyCompleted_eq_zero hkept).symm
  rw [hlog, List.append_nil]

/-- The status that was come to is told, and nothing completed. -/
theorem course_of_entered (hsound : q.status.Sound m) (hlog : q.log = p.log.push (.status q.status))
    (hgood : good q.status) (hkept : q.status.completed = true → p.status.completed = true) :
    Course [] good m p q := by
  refine course_of_told hsound (l := [.status q.status]) ?_ (fun s hs => ?_)
    (newlyCompleted_eq_zero hkept).symm
  · rw [hlog, Array.toList_push]
  · obtain rfl := Event.status.inj (List.mem_singleton.mp hs)
    exact hgood

theorem Course.trans (h : Course own good m p q) (h' : Course own' good k q r)
    (hcompleted : p.newlyCompleted q + q.newlyCompleted r = p.newlyCompleted r) :
    Course (own ++ own') good k p r := by
  obtain ⟨events, hlog, hgood, hcount⟩ := h.told
  obtain ⟨events', hlog', hgood', hcount'⟩ := h'.told
  refine ⟨h'.sound, events ++ events', ?_, fun s hs => ?_, ?_⟩
  · rw [hlog', hlog, List.append_assoc]
  · rcases List.mem_append.mp hs with hs | hs
    · exact (hgood s hs).imp_left (List.mem_append_left _)
    · exact (hgood' s hs).imp_left (List.mem_append_right _)
  · rw [List.countP_append, List.countP_append, hcount, hcount', ← hcompleted]
    omega

/-- What comes before may be left out if it tells nothing and completes nothing. -/
theorem Course.of_log_eq (h : Course own good m q r) (hlog : q.log = p.log)
    (hsame : q.status.completed = p.status.completed) : Course own good m p r := by
  obtain ⟨events, htold, hgood, hcount⟩ := h.told
  refine ⟨h.sound, events, ?_, hgood, ?_⟩
  · rw [htold, hlog]
  · rw [hcount, newlyCompleted_congr hsame]

/-- What comes after may be left out if it tells nothing and leaves the status as it is. -/
theorem Course.of_same (h : Course own good m p q) (hlog : r.log = q.log)
    (hstatus : r.status = q.status) : Course own good m p r := by
  obtain ⟨events, htold, hgood, hcount⟩ := h.told
  refine ⟨hstatus ▸ h.sound, events, hlog ▸ htold, hgood, ?_⟩
  rw [hcount]
  unfold newlyCompleted
  rw [hstatus]

theorem Course.mono {good' : Status → Prop} (h : Course own good m p q)
    (hgood : ∀ s, good s → good' s) : Course own good' m p q := by
  obtain ⟨events, htold, hold, hcount⟩ := h.told
  exact ⟨h.sound, events, htold, fun s hs => (hold s hs).imp_right (hgood s), hcount⟩

/-! ## Controls -/

theorem course_play (h : p.status.Sound n) :
    Course [] (fun s => s.state = .playing ∧ s.Sound n) n p p.play.1 := by
  unfold play
  split
  · exact course_of_log_eq h rfl id
  · rename_i hopen
    have hplays := h.play (Bool.eq_false_iff.mpr hopen)
    exact course_of_entered hplays rfl ⟨rfl, hplays⟩ id

theorem course_pause (h : p.status.Sound n) : Course [] (Status.Sound n) n p p.pause :=
  course_of_entered h.pause rfl h.pause id

theorem course_reset (h : p.status.Sound n) : Course [] (Restarted n) 0 p p.reset := by
  -- stopping is told with the old count, which is cleared only then
  have hcleared : p.reset.status.Sound 0 := Status.sound_reset (s := p.stop.status) rfl rfl
  have hstopped : Course [] (Restarted n) n p p.stop := course_of_entered h.stop rfl h.stop id
  have hreset : Course [] (Restarted n) 0 p.stop p.reset :=
    course_of_entered hcleared rfl hcleared nofun
  refine hstopped.trans hreset ?_
  rw [newlyCompleted_eq_zero (p := p) (q := p.stop) id,
    newlyCompleted_eq_zero (p := p.stop) (q := p.reset) nofun,
    newlyCompleted_eq_zero (p := p) (q := p.reset) nofun]

theorem course_resumeFromCompleted (h : p.status.Sound n) :
    Course [] (Status.Sound n) n p p.resumeFromCompleted.1 := by
  unfold resumeFromCompleted
  split
  · exact course_of_entered h.resume rfl h.resume nofun
  · exact course_of_log_eq h rfl id

theorem course_heldUp (h : p.status.Sound n) : Course [] (Status.Sound n) n p p.heldUp := by
  unfold heldUp
  split
  · exact course_pause h
  · exact course_of_log_eq h rfl id

/-- Toggling starts the count over exactly if playback is completed. -/
theorem course_toggle (h : p.status.Sound n) :
    (p.status.completed = true → Course [] (Restarted n) 0 p p.toggle) ∧
    (p.status.completed = false → Course [] (Status.Sound n) n p p.toggle) := by
  unfold toggle
  constructor
  · intro hcompleted
    rw [if_pos hcompleted]
    have hreset := course_reset h
    have hplayed : Course [] (Restarted n) 0 p.reset p.reset.play.1 := by
      refine (course_play hreset.sound).mono fun s hs => ?_
      unfold Restarted
      rw [hs.1]
      exact hs.2
    -- playing tells of no completion, since the reset has taken it back
    have hopen := p.reset.still_play.completed
    refine hreset.trans hplayed ?_
    rw [newlyCompleted_eq_zero (q := p.reset) nofun, newlyCompleted_eq_zero hopen,
      newlyCompleted_eq_zero fun hc => absurd (hopen hc) Bool.false_ne_true]
  · intro hopen
    rw [hopen, if_neg Bool.false_ne_true]
    split
    · exact course_pause h
    · exact (course_play h).mono fun s hs => hs.2

/-! ## A step -/

/-- A completion is told after the state that is entered with it. -/
theorem course_complete (h : p.status.Sound n) : Course [] (Status.Sound n) n p p.complete := by
  by_cases hdone : p.status.completed = true
  · rw [show p.complete = p from if_pos hdone]
    exact course_of_log_eq h rfl id
  · have hstatus : p.complete.status = { p.status with
        state := .completed, playing := false, paused := false, completed := true } := by
      simp [complete, hdone, enterState, notify]
    have hsound : p.complete.status.Sound n := hstatus ▸ h.complete
    refine course_of_told hsound (l := [.status p.complete.status, .completed]) ?_
      (fun s hs => ?_) ?_
    · simp [complete, hdone, enterState, notify]
    · simp only [List.mem_cons, Event.status.injEq, reduceCtorEq, List.not_mem_nil, or_false] at hs
      exact hs ▸ hsound
    · rw [newlyCompleted, if_pos ⟨Bool.eq_false_iff.mpr hdone, by rw [hstatus]⟩]
      rfl

theorem course_fail (h : p.status.Sound n) (e : SessionFailure) :
    Course [] (Status.Sound n) n p (p.fail e) := by
  refine course_of_told h.stop (l := [.failed e, .status (p.fail e).status]) ?_ (fun s hs => ?_)
    (newlyCompleted_eq_zero id).symm
  · simp [fail, stop, enterState, notify]
  · simp only [List.mem_cons, Event.status.injEq, reduceCtorEq, List.not_mem_nil, or_false,
      false_or] at hs
    exact hs ▸ h.stop

/-- Nothing is told if there is more to do. -/
theorem course_afterLoopStep_more (h : p.status.Sound m) (run : Nat) :
    Course [] good m p (p.afterLoopStep run .more) := by
  unfold afterLoopStep
  split <;> exact course_of_log_eq h rfl id

theorem course_afterLoopStep (h : p.status.Sound n) (run : Nat) (outcome : StepOutcome) :
    Course [] (Status.Sound n) n p (p.afterLoopStep run outcome) := by
  cases outcome with
  | more => exact course_afterLoopStep_more h run
  | finished =>
    unfold afterLoopStep
    split
    · exact course_complete h
    · exact course_of_log_eq h rfl id
  | failed e =>
    unfold afterLoopStep
    split
    · exact course_fail h e
    · exact course_of_log_eq h rfl id

theorem course_afterHandStep (h : p.status.Sound n) (ticket : Nat) (outcome : StepOutcome) :
    Course [] (Status.Sound n) n p (p.afterHandStep ticket outcome) := by
  cases outcome with
  | more => exact course_of_log_eq h rfl id
  | finished => exact (course_complete h).of_same rfl rfl
  | failed e => exact (course_fail h e).of_same rfl rfl

/-- A result with more to do is counted, and nothing is told of it. -/
theorem course_settle (h : p.status.Sound n) (holder : Stepper) (outcome : StepOutcome)
    (waiting : List Stepper) : Course [] (Status.Sound n) (if outcome = .more then n + 1 else n) p
      (p.settle holder outcome waiting) := by
  by_cases hmore : outcome = .more
  · subst hmore
    rw [if_pos rfl]
    have hcounted := h.countStep
    cases holder with
    | loop run =>
      exact (course_afterLoopStep_more (p := { p with
        status := p.status.countStep, gate := .released waiting }) hcounted run).of_log_eq rfl rfl
    | hand ticket => exact course_of_log_eq hcounted rfl id
  · rw [if_neg hmore]
    unfold settle
    simp only [if_neg hmore]
    cases holder with
    | loop run =>
      exact (course_afterLoopStep (p := { p with gate := .released waiting }) h run outcome).of_log_eq
        rfl rfl
    | hand ticket =>
      exact (course_afterHandStep (p := { p with gate := .released waiting }) h ticket
        outcome).of_log_eq rfl rfl

/-- A step that is taken tells what the step function tells, and then what is made of its result, if
that is there at once. -/
theorem course_takeStep (h : p.status.Sound n) (s : Stepper) (waiting : List Stepper) :
    let a := w p.status.currentStep p.work
    Course a.events (Status.Sound n) (if a.durationMs = 0 ∧ a.outcome = .more then n + 1 else n) p
      (p.takeStep w s waiting) := by
  intro a
  let called : Playback σ := { p with work := a.work, log := p.log ++ a.events.toArray }
  have hcalled : Course a.events (Status.Sound n) n p called := by
    refine ⟨h, a.events, ?_, fun s hs => Or.inl hs, ?_⟩
    · simp [called]
    · rw [newlyCompleted_eq_zero (p := p) (q := called) id]
      rfl
  by_cases hinstant : a.durationMs = 0
  · have hsettled := course_settle (p := called) h s a.outcome waiting
    have htaken : p.takeStep w s waiting = called.settle s a.outcome waiting := if_pos hinstant
    have hfirst := newlyCompleted_eq_zero (p := p) (q := called) id
    have hrest := newlyCompleted_congr (p := p) (q := called) rfl (called.settle s a.outcome waiting)
    have hboth := hcalled.trans hsettled (by omega)
    rw [List.append_nil] at hboth
    rw [htaken]
    simpa only [hinstant, true_and] using hboth
  · have htaken : p.takeStep w s waiting
        = { called with gate := .stepping s a.outcome (p.clock + a.durationMs) waiting } :=
      if_neg hinstant
    rw [htaken, if_neg fun hb => hinstant hb.1]
    exact hcalled.of_same rfl rfl

/-! ## Every action -/

/-- The second is the first for those who are told of playback. -/
def Unnoticed (p q : Playback σ) : Prop := q.status = p.status ∧ q.log = p.log

theorem unnoticed_approach (p : Playback σ) (s : Stepper) : p.Unnoticed (p.approach enduring s) := by
  unfold approach
  rw [takeStep_enduring]
  split <;> exact ⟨rfl, rfl⟩

theorem unnoticed_goOn (p : Playback σ) (run : Nat) : p.Unnoticed (p.goOn enduring run) := by
  unfold goOn
  split
  · exact p.unnoticed_approach (.loop run)
  · exact ⟨rfl, rfl⟩

/-- Under a step that has only begun, nobody notices what loops do. -/
theorem unnoticed_move (p : Playback σ) {m : Move} (hm : m ≠ .land) :
    p.Unnoticed (p.move enduring m) := by
  cases m with
  | land => exact absurd rfl hm
  | begin run => exact unnoticed_goOn { p with fresh := p.fresh.erase run } run
  | wake s =>
    show p.Unnoticed (p.wake enduring s)
    unfold wake
    simp only
    split
    · exact ⟨rfl, rfl⟩
    · exact unnoticed_goOn { p with sleeping := p.sleeping.erase s } s.run
  | proceed =>
    show p.Unnoticed (p.proceed enduring)
    unfold proceed
    split
    · rw [takeStep_enduring]
      exact ⟨rfl, rfl⟩
    · simp only [takeStep_enduring]
      split
      · exact ⟨rfl, rfl⟩
      · split <;> exact ⟨rfl, rfl⟩
    · exact ⟨rfl, rfl⟩

theorem course_requestStep (h : p.status.Sound n) :
    Course [] (Status.Sound n) n p (p.requestStep enduring).1 := by
  unfold requestStep
  simp only
  split
  · exact course_of_log_eq h rfl id
  · have hheld := course_heldUp (p := { p with tickets := p.tickets + 1 }) h
    obtain ⟨hstatus, hlog⟩ := unnoticed_approach
      ({ p with tickets := p.tickets + 1 } : Playback σ).heldUp (.hand p.tickets)
    exact (hheld.of_same hlog hstatus).of_log_eq rfl rfl

theorem counted_of_returned {a : Action} {s : Stepper} {outcome : StepOutcome}
    (hkeeps : p.restarts a = false) (h : p.returned? w a = some (s, outcome)) :
    p.counted w n a = if outcome = .more then n + 1 else n := by
  unfold counted
  rw [hkeeps, h]
  cases outcome <;> rfl

theorem counted_of_not_returned {a : Action} (hkeeps : p.restarts a = false)
    (h : p.returned? w a = none) : p.counted w n a = n := by
  unfold counted
  rw [hkeeps, h]
  rfl

/-- Actions that come to the same with every step function. -/
theorem course_of_const {a : Action} (hq : ∀ w, p.act w a = q) (ha : a ≠ .move .land)
    (h : Course [] (p.Shows n a) (if p.restarts a then 0 else n) p q) :
    Course (p.spoken w a) (p.Shows n a) (p.counted w n a) p (p.act w a) := by
  have hnone : ¬ p.Begins a := fun ⟨w, w', hne⟩ => hne ((hq w).trans (hq w').symm)
  rw [spoken, if_neg hnone, counted, returned?_of_not_begins hnone ha, hq w]
  exact h

theorem Course.keeping {a : Action} (h : Course own (Status.Sound n) m p q)
    (hkeeps : p.restarts a = false) : Course own (p.Shows n a) m p q := by
  refine h.mono fun s hs => ?_
  unfold Shows
  rwa [hkeeps]

/-- Actions that do so and do not start the count over. -/
theorem course_of_keeping {a : Action} (hq : ∀ w, p.act w a = q) (ha : a ≠ .move .land)
    (hkeeps : p.restarts a = false) (h : Course [] (Status.Sound n) n p q) :
    Course (p.spoken w a) (p.Shows n a) (p.counted w n a) p (p.act w a) := by
  refine course_of_const hq ha ?_
  rw [if_neg (Bool.eq_false_iff.mp hkeeps)]
  exact h.keeping hkeeps

/-- Actions that do so and start the count over. -/
theorem course_of_restarting {a : Action} (hq : ∀ w, p.act w a = q) (ha : a ≠ .move .land)
    (hrestarts : p.restarts a = true) (h : Course [] (Restarted n) 0 p q) :
    Course (p.spoken w a) (p.Shows n a) (p.counted w n a) p (p.act w a) := by
  refine course_of_const hq ha ?_
  rw [if_pos hrestarts]
  refine h.mono fun s hs => ?_
  unfold Shows
  rwa [hrestarts]

/-- An action of someone either does without the step function or takes one step, and what it does
besides can be seen under a step that has only begun. -/
theorem course_of_call {a : Action} {s : Stepper} (hs : p.actor? a = some s)
    (hcall : Call p s fun w => p.act w a) (ha : a ≠ .move .land) (hkeeps : p.restarts a = false)
    (hbeside : p.Beside (p.act enduring a)) (h : Course [] (Status.Sound n) n p (p.act enduring a)) :
    Course (p.spoken w a) (p.Shows n a) (p.counted w n a) p (p.act w a) := by
  cases hcall with
  | never q hq hgate =>
    rw [hq] at h
    exact course_of_keeping hq ha hkeeps h
  | once q waiting hq hwork hcount hidle hloop =>
    rw [hq, takeStep_enduring] at h hbeside
    -- what the step function makes of it shows, so the step counts as begun by the action
    have hbegins : p.Begins a := by
      obtain ⟨w, w', hne⟩ := exists_takeStep_ne q s waiting
      exact ⟨w, w', by rwa [hq w, hq w']⟩
    have hbefore : Course [] (Status.Sound n) n p q := h.of_same rfl rfl
    have hcompleted : q.status.completed = p.status.completed := hbeside.completed
    have htaken := course_takeStep (w := w) hbefore.sound s waiting
    have hboth := hbefore.trans htaken (by
      rw [newlyCompleted_eq_zero fun hc => hcompleted.symm.trans hc, Nat.zero_add,
        newlyCompleted_congr hcompleted])
    rw [hwork, hcount] at hboth
    have hcounted : p.counted w n a = if (w p.status.currentStep p.work).durationMs = 0
        ∧ (w p.status.currentStep p.work).outcome = .more then n + 1 else n := by
      have hreturned := returned?_of_begins (w := w) hbegins hs
      by_cases hinstant : (w p.status.currentStep p.work).durationMs = 0
      · rw [if_pos hinstant] at hreturned
        simp only [counted_of_returned hkeeps hreturned, hinstant, true_and]
      · rw [if_neg hinstant] at hreturned
        simp only [counted_of_not_returned hkeeps hreturned, hinstant, false_and, if_false]
    rw [hq w, spoken, if_pos hbegins, hcounted]
    exact hboth.keeping hkeeps

/-- The result that comes in when a step lands is counted, whatever is made of it. -/
theorem course_land (h : p.status.Sound n) : Course (p.spoken w (.move .land))
    (p.Shows n (.move .land)) (p.counted w n (.move .land)) p (p.act w (.move .land)) := by
  rw [spoken, if_neg p.not_begins_land]
  show Course _ _ _ p p.land
  cases hgate : p.gate with
  | stepping holder outcome finish waiting =>
    have hreturned : p.returned? w (.move .land) = some (holder, outcome) := by
      unfold returned?
      rw [hgate]
    have hsettled : p.land = p.settle holder outcome waiting := by
      unfold land
      rw [hgate]
    rw [hsettled, counted_of_returned rfl hreturned]
    exact (course_settle h holder outcome waiting).keeping rfl
  | free | granted =>
    -- no step is under way
    have hnone : p.returned? w (.move .land) = none := by
      unfold returned?
      rw [hgate]
      exact if_neg fun hb => p.not_begins_land hb.1
    have hsame : p.land = p := by
      unfold land
      rw [hgate]
    rw [hsame, counted_of_not_returned rfl hnone]
    exact (course_of_log_eq h rfl id).keeping rfl

theorem course_act (h : p.status.Sound n) (a : Action) :
    Course (p.spoken w a) (p.Shows n a) (p.counted w n a) p (p.act w a) := by
  cases a with
  | play =>
    have hplay := (course_play h).mono fun s hs => hs.2
    exact course_of_keeping (fun _ => rfl) nofun rfl hplay
  | pause => exact course_of_keeping (fun _ => rfl) nofun rfl (course_pause h)
  | stop => exact course_of_keeping (fun _ => rfl) nofun rfl (course_of_entered h.stop rfl h.stop id)
  | reset => exact course_of_restarting (fun _ => rfl) nofun rfl (course_reset h)
  | toggle =>
    cases hcompleted : p.status.completed with
    | true =>
      exact course_of_restarting (fun _ => rfl) nofun hcompleted ((course_toggle h).1 hcompleted)
    | false =>
      exact course_of_keeping (fun _ => rfl) nofun hcompleted ((course_toggle h).2 hcompleted)
  | resumeFromCompleted =>
    exact course_of_keeping (fun _ => rfl) nofun rfl (course_resumeFromCompleted h)
  | setSpeed ms =>
    exact course_of_keeping (fun _ => rfl) nofun rfl (course_of_log_eq (h.withSpeed _) rfl id)
  | cancel | setTurbo | elapseTo | lineUp =>
    exact course_of_keeping (fun _ => rfl) nofun rfl (course_of_log_eq h rfl id)
  | step =>
    exact course_of_call rfl p.call_requestStep nofun rfl p.beside_requestStep (course_requestStep h)
  | move m =>
    by_cases hland : m = .land
    · rw [hland]
      exact course_land h
    · have hne : Action.move m ≠ .move .land := fun he => hland (Action.move.inj he)
      obtain ⟨hstatus, hlog⟩ := p.unnoticed_move hland
      have hmoved : Course [] (Status.Sound n) n p (p.move enduring m) :=
        (course_of_log_eq h rfl id).of_same hlog hstatus
      rcases p.act_cases hne with ⟨q, hq, -⟩ | ⟨s, hs, hcall⟩
      · have hconst : p.move enduring m = q := hq enduring
        exact course_of_keeping hq hne rfl (hconst ▸ hmoved)
      · exact course_of_call hs hcall hne rfl (p.beside_move hland) hmoved

/-- The induction is on the actions. -/
theorem sound_after (h : p.status.Sound n) (actions : List Action) :
    (p.after w actions).status.Sound (p.tally w n actions) := by
  induction actions generalizing p n with
  | nil => exact h
  | cons a later ih => exact ih (course_act h a).sound

/-- In whatever order controls, steps by hand and the loops of all runs follow each other, and whatever
comes of the steps: the state last entered and the flags agree; both counters show the results with more
to do that came in since the count was last started over; every status that playback tells shows the
same; and it tells of a completion exactly once in every action that completes it, and in no other. -/
theorem status_agrees (w : Workload σ) (c : PlaybackConfig) (bounds : DelayBounds) (x : σ)
    (actions : List Action) :
    let p := new c bounds x
    let q := p.after w actions
    let n := p.tally w 0 actions
    (q.status.Agrees ∧ q.status.currentStep = n ∧ q.status.totalSteps = n) ∧
    ∀ a, ∃ told, (q.act w a).log.toList = q.log.toList ++ told ∧
      (∀ s, .status s ∈ told → .status s ∈ q.spoken w a ∨ q.Shows n a s) ∧
      told.countP Event.isCompletion = (q.spoken w a).countP Event.isCompletion +
        if q.status.completed = false ∧ (q.act w a).status.completed = true then 1 else 0 := by
  intro p q n
  have hsound : q.status.Sound n := sound_after (Status.sound_initial _) actions
  exact ⟨⟨hsound.toAgrees, hsound.current_eq, hsound.total_eq⟩, fun a => (course_act hsound a).told⟩

end Playback

end Retrace
