import Retrace.Proofs.Playback.Touch
/-!
# Steps that take no time

Where steps take no time a step is over within the move that began it, so what a loop or a step by hand
comes to can be said in one piece: `goOn_of_running` for a loop, `stepForward_of_instant` for a step by
hand. Neither does anything to the loops that wait (`SameLoops`); a move takes one of them off, and may
put it to sleep again (`Turn`).
-/

namespace Retrace

namespace Playback

variable {σ : Type} {w : Workload σ} {p q r : Playback σ}

/-- Both are set up alike. -/
structure SameSettings (p q : Playback σ) : Prop where
  bounds : q.bounds = p.bounds
  pausePollMs : q.pausePollMs = p.pausePollMs
  speed : q.status.speedMs = p.status.speedMs

theorem SameSettings.refl (p : Playback σ) : p.SameSettings p := ⟨rfl, rfl, rfl⟩

theorem SameSettings.trans (h : p.SameSettings q) (h' : q.SameSettings r) : p.SameSettings r :=
  ⟨h'.bounds.trans h.bounds, h'.pausePollMs.trans h.pausePollMs, h'.speed.trans h.speed⟩

/-- What matters for the loops is the same in both. -/
structure SameLoops (p q : Playback σ) : Prop extends SameSettings p q where
  run : q.run = p.run
  fresh : q.fresh = p.fresh
  sleeping : q.sleeping = p.sleeping
  gate : q.gate = p.gate
  answers : q.answers = p.answers
  awaitable : q.awaitable = p.awaitable
  clock : q.clock = p.clock

theorem SameLoops.refl (p : Playback σ) : p.SameLoops p := ⟨.refl p, rfl, rfl, rfl, rfl, rfl, rfl, rfl⟩

/-- The speed apart, the status does not matter for the loops, and neither does the work. -/
theorem sameLoops_of_eq (h : q = { p with
      status := q.status, turbo := q.turbo, cancelled := q.cancelled, tickets := q.tickets
      work := q.work, log := q.log })
    (hspeed : q.status.speedMs = p.status.speedMs) : p.SameLoops q := by
  rw [h]
  exact ⟨⟨rfl, rfl, hspeed⟩, rfl, rfl, rfl, rfl, rfl, rfl, rfl⟩

theorem SameLoops.trans (h : p.SameLoops q) (h' : q.SameLoops r) : p.SameLoops r where
  toSameSettings := h.toSameSettings.trans h'.toSameSettings
  run := h'.run.trans h.run
  fresh := h'.fresh.trans h.fresh
  sleeping := h'.sleeping.trans h.sleeping
  gate := h'.gate.trans h.gate
  answers := h'.answers.trans h.answers
  awaitable := h'.awaitable.trans h.awaitable
  clock := h'.clock.trans h.clock

theorem sameLoops_complete (p : Playback σ) : p.SameLoops p.complete := by
  unfold complete
  split
  · exact .refl p
  · exact sameLoops_of_eq rfl rfl

theorem sameLoops_reset (p : Playback σ) : p.SameLoops p.reset := sameLoops_of_eq rfl rfl

theorem sameLoops_pause (p : Playback σ) : p.SameLoops p.pause := sameLoops_of_eq rfl rfl

theorem sameLoops_fail (p : Playback σ) (e : SessionFailure) : p.SameLoops (p.fail e) :=
  sameLoops_of_eq rfl rfl

theorem sameLoops_resumeFromCompleted (p : Playback σ) :
    p.SameLoops p.resumeFromCompleted.1 := by
  unfold resumeFromCompleted
  split
  · exact sameLoops_of_eq rfl rfl
  · exact .refl p

/-! ## A step that takes no time -/

/-- Playback whose work has taken a step, before it is seen what follows from that. -/
def stepped (w : Workload σ) (p : Playback σ) : Playback σ :=
  let a := w p.status.currentStep p.work
  { p with
    work := a.work
    log := p.log ++ a.events.toArray
    status := if a.outcome = .more then p.status.countStep else p.status }

/-- What came of that step. -/
def outcome (w : Workload σ) (p : Playback σ) : StepOutcome :=
  (w p.status.currentStep p.work).outcome

theorem sameLoops_stepped (p : Playback σ) : p.SameLoops (p.stepped w) := by
  refine sameLoops_of_eq rfl ?_
  unfold stepped
  simp only
  split <;> rfl

/-- A step that takes no time is over at once, and its taker goes on. -/
theorem takeStep_of_instant (hw : w.Instant) (hfree : p.gate = .free) (s : Stepper) :
    p.takeStep w s [] = match s with
      | .loop run => (p.stepped w).afterLoopStep run (p.outcome w)
      | .hand ticket => (p.stepped w).afterHandStep ticket (p.outcome w) := by
  have hreleased : ({ p.stepped w with gate := .released [] } : Playback σ) = p.stepped w := by
    unfold stepped Gate.released
    rw [← hfree]
  unfold takeStep
  simp only [hw p.status.currentStep p.work, if_true]
  cases s with
  | loop run =>
    show ({ p.stepped w with gate := .released [] } : Playback σ).afterLoopStep run _ = _
    rw [hreleased]
    rfl
  | hand ticket =>
    show ({ p.stepped w with gate := .released [] } : Playback σ).afterHandStep ticket _ = _
    rw [hreleased]
    rfl

/-- A loop whose run is live and running takes a step, and then sleeps or ends. -/
theorem goOn_of_running (hw : w.Instant) {run : Nat} (hfree : p.gate = .free)
    (hlive : p.isLive run = true) (hrunning : p.status.isRunning = true) :
    p.goOn w run = match p.outcome w with
      | .more => (p.stepped w).sleep run (p.stepped w).delay
      | .finished => (p.stepped w).complete
      | .failed e => (p.stepped w).fail e := by
  have hgo : (p.isLive run && p.status.isRunning) = true := by
    rw [hlive, hrunning]
    rfl
  have hkept : (p.stepped w).isLive run = true := hlive
  unfold goOn approach
  rw [if_pos hgo, hfree]
  refine (takeStep_of_instant hw hfree (.loop run)).trans ?_
  show (p.stepped w).afterLoopStep run (p.outcome w) = _
  unfold afterLoopStep
  exact if_pos hkept

theorem goOn_of_not {run : Nat} (h : (p.isLive run && p.status.isRunning) = false) :
    p.goOn w run = p := by
  unfold goOn
  rw [h, if_neg Bool.false_ne_true]

/-- Playback in which a running loop is held up. -/
def heldUp (p : Playback σ) : Playback σ :=
  if p.status.playing && !p.status.paused then p.pause else p

theorem sameLoops_heldUp (p : Playback σ) : p.SameLoops p.heldUp := by
  unfold heldUp
  split
  · exact p.sameLoops_pause
  · exact .refl p

/-- A step by hand that takes no time: what playback comes to, and the answer. -/
def byHand (w : Workload σ) (p : Playback σ) : Playback σ × Except SessionFailure Bool :=
  if p.status.completed then (p, .ok false)
  else
    match p.heldUp.outcome w with
    | .more => (p.heldUp.stepped w, .ok true)
    | .finished => ((p.heldUp.stepped w).complete, .ok false)
    | .failed e => ((p.heldUp.stepped w).fail e, .error e)

theorem sameLoops_byHand (p : Playback σ) : p.SameLoops (p.byHand w).1 := by
  unfold byHand
  split
  · exact .refl p
  · have hstepped := p.sameLoops_heldUp.trans (sameLoops_stepped (w := w) p.heldUp)
    split
    · exact hstepped
    · exact hstepped.trans (sameLoops_complete _)
    · exact hstepped.trans (sameLoops_fail _ _)

/-- An answer that is noted can be taken, and is then forgotten. -/
theorem answered_answer (h : p.answers = []) (ticket : Nat) (r : Except SessionFailure Bool) :
    (p.answer ticket r).answer? ticket = some r ∧ (p.answer ticket r).forget ticket = p := by
  have hnone : [(ticket, r)].filter (·.1 != ticket) = [] := by simp
  unfold answer answer? forget
  constructor
  · simp only [h, List.nil_append, List.lookup_cons_self]
  · simp only [h, List.nil_append, hnone]
    rw [← h]

/-- The playback a step by hand starts from. -/
def ticketed (p : Playback σ) : Playback σ := { p with tickets := p.tickets + 1 }

theorem requestStep_of_instant (hw : w.Instant) (hfree : p.gate = .free) :
    p.requestStep w = ((p.ticketed.byHand w).1.answer p.tickets (p.ticketed.byHand w).2, p.tickets) := by
  have happroach : ∀ (q : Playback σ) (ticket : Nat), q.gate = .free → q.approach w (.hand ticket)
      = (q.stepped w).afterHandStep ticket (q.outcome w) := by
    intro q ticket hq
    unfold approach
    rw [hq]
    exact takeStep_of_instant hw hq (.hand ticket)
  have hheld : p.ticketed.heldUp.gate = .free := (sameLoops_heldUp _).gate.trans hfree
  unfold requestStep byHand
  by_cases hcompleted : p.status.completed = true
  · have hkept : p.ticketed.status.completed = true := hcompleted
    simp only [hcompleted, hkept, if_true]
    rfl
  · have hkept : ¬ p.ticketed.status.completed = true := hcompleted
    rw [if_neg hkept]
    simp only [hcompleted, Bool.false_eq_true, if_false]
    have happroached := happroach p.ticketed.heldUp p.tickets hheld
    refine Prod.ext (happroached.trans ?_) rfl
    unfold afterHandStep
    cases p.ticketed.heldUp.outcome w <;> rfl

theorem stepForward_of_instant (hw : w.Instant) (hfree : p.gate = .free) (hanswers : p.answers = [])
    (fuel : Nat) : p.stepForward w fuel = ((p.ticketed.byHand w).1, some (p.ticketed.byHand w).2) := by
  have hsame : (p.ticketed.byHand w).1.answers = [] := (sameLoops_byHand _).answers.trans hanswers
  have hanswered := isSome_requestStep hw hfree
  obtain ⟨hanswer, hforget⟩ := answered_answer hsame p.tickets (p.ticketed.byHand w).2
  unfold stepForward
  rw [requestStep_of_instant hw hfree] at hanswered ⊢
  simp only at hanswered ⊢
  rw [advance_of_holds hanswered, hanswer, hforget]

/-! ## The turn of a loop -/

/-- What playback comes to when a loop has gone on that was taken off the lists. -/
inductive Turn (w : Workload σ) (p : Playback σ) (run : Nat) (p' : Playback σ) : Prop where
  /-- The loop ends, with a step or without one. -/
  | ends (hsame : p.SameLoops p')
      (hwork : p'.work = p.work ∨ p'.work = (w p.status.currentStep p.work).work)
      (hheld : p'.status.isHeld = true → p'.status = p.status ∧ p'.cancelled = p.cancelled)
  /-- The loop takes a step and sleeps. -/
  | steps (hlive : p.isLive run = true) (hrunning : p.status.isRunning = true)
      (hmore : p.outcome w = .more) (heq : p' = (p.stepped w).sleep run (p.stepped w).delay)

theorem complete_of_held (h : p.complete.status.isHeld = true) : p.complete = p := by
  unfold complete at h ⊢
  split at h
  · rename_i hcompleted
    rw [if_pos hcompleted]
  · exact nomatch h

theorem turn_goOn (hw : w.Instant) (hfree : p.gate = .free) (run : Nat) :
    Turn w p run (p.goOn w run) := by
  cases hgo : p.isLive run && p.status.isRunning with
  | false =>
    rw [goOn_of_not hgo]
    exact .ends (.refl p) (Or.inl rfl) fun _ => ⟨rfl, rfl⟩
  | true =>
    obtain ⟨hlive, hrunning⟩ := Bool.and_eq_true_iff.mp hgo
    rw [goOn_of_running hw hfree hlive hrunning]
    cases houtcome : p.outcome w with
    | more => exact .steps hlive hrunning houtcome rfl
    | finished =>
      refine .ends (p.sameLoops_stepped.trans (sameLoops_complete _)) (Or.inr ?_) ?_
      · exact complete_work _
      · intro hheld
        have hcounted : (p.stepped w).status = p.status := if_neg fun hmore => by
          exact nomatch houtcome.symm.trans hmore
        simp only at hheld ⊢
        rw [complete_of_held hheld, hcounted]
        exact ⟨rfl, rfl⟩
    | failed e =>
      exact .ends (p.sameLoops_stepped.trans (sameLoops_fail _ e)) (Or.inr rfl) nofun

theorem turn_begin (hw : w.Instant) (hfree : p.gate = .free) (run : Nat) :
    Turn w { p with fresh := p.fresh.erase run } run (p.begin w run) :=
  turn_goOn (p := { p with fresh := p.fresh.erase run }) hw hfree run

/-- A loop that wakes goes on, unless it is held up: then it will look again. -/
theorem turn_wake (hw : w.Instant) (hfree : p.gate = .free) (s : Sleeper) :
    (p.isLive s.run = true ∧ p.status.isHeld = true ∧ p.wake w s
      = ({ p with sleeping := p.sleeping.erase s } : Playback σ).sleep s.run p.pausePollMs) ∨
    Turn w { p with sleeping := p.sleeping.erase s } s.run (p.wake w s) := by
  unfold wake
  simp only
  split
  · rename_i hholds
    obtain ⟨hlive, hheld⟩ := Bool.and_eq_true_iff.mp hholds
    exact Or.inl ⟨hlive, hheld, rfl⟩
  · exact Or.inr (turn_goOn (p := { p with sleeping := p.sleeping.erase s }) hw hfree s.run)

theorem Turn.sameSettings {run : Nat} (h : Turn w p run q) : p.SameSettings q := by
  cases h with
  | ends hsame => exact hsame.toSameSettings
  | steps hlive hrunning hmore heq =>
    rw [heq]
    exact ⟨rfl, rfl, (sameLoops_stepped p).speed⟩

/-! ## Settings -/

theorem sameSettings_play (p : Playback σ) : p.SameSettings p.play.1 := by
  unfold play
  split <;> exact ⟨rfl, rfl, rfl⟩

theorem sameSettings_toggle (p : Playback σ) : p.SameSettings p.toggle := by
  unfold toggle
  split
  · exact p.sameLoops_reset.toSameSettings.trans p.reset.sameSettings_play
  · split
    · exact p.sameLoops_pause.toSameSettings
    · exact p.sameSettings_play

theorem sameSettings_move (hw : w.Instant) (hfree : p.gate = .free) (m : Move) :
    p.SameSettings (p.move w m) := by
  cases m with
  | begin run =>
    have hoff : p.SameSettings { p with fresh := p.fresh.erase run } := ⟨rfl, rfl, rfl⟩
    exact hoff.trans (turn_begin hw hfree run).sameSettings
  | wake s =>
    have hoff : p.SameSettings { p with sleeping := p.sleeping.erase s } := ⟨rfl, rfl, rfl⟩
    rcases turn_wake hw hfree s with ⟨-, -, hwake⟩ | hturn
    · show p.SameSettings (p.wake w s)
      rw [hwake]
      exact ⟨rfl, rfl, rfl⟩
    · exact hoff.trans hturn.sameSettings
  | proceed =>
    rw [move_proceed_of_free hfree]
    exact .refl p
  | land =>
    rw [move_land_of_free hfree]
    exact .refl p

end Playback

end Retrace
