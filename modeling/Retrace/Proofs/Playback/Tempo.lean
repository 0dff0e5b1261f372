import Retrace.Playback.Clock
import Mathlib.Order.Monotone.Defs
import Mathlib.Data.Nat.Basic
/-!
# The delay between two steps

A clamp needs its ends in order and fails if they are reversed (`clamp?`). Playback holds a pair of ends
that is known to be in order, so its own clamps have no way to fail. `Tempo` is what the delay depends on
without that knowledge: the ends as they were configured, and the speed and the mode set since. With ends
that have bounds, its clamps give what those of playback give (`ofConfig?_tempo`, `setSpeed?_tempo`,
`delay?_tempo`).

Nothing that playback does of itself changes its tempo, whatever the steps are and however long they
take, and a loop that is put to sleep sleeps for the delay of that tempo (`InTempo`), or, if it is held
up, until it looks again (`alarm_move`).
-/

namespace Retrace

/-- The value nearest to `n` between two ends, if the ends are in order. -/
def clamp? (least most n : Nat) : Option Nat :=
  if least ≤ most then some (if n < least then least else if most < n then most else n) else none

namespace DelayBounds

variable (b : DelayBounds)

/-- Between ends in order there is always a nearest value. -/
theorem clamp?_eq (ms : Nat) : clamp? b.least b.most ms = some (b.clamp ms) := by
  have hordered := b.least_le_most
  unfold clamp? clamp
  rw [if_pos hordered]
  congr 1
  split
  · omega
  · split <;> omega

theorem clamp_mono : Monotone b.clamp := by
  intro ms ms' hle
  unfold clamp
  omega

theorem delay_le_most (ms : Nat) (turbo : Bool) : b.delay ms turbo ≤ b.most := by
  have hclamp := b.clamp_le_most ms
  have hordered := b.least_le_most
  unfold delay
  split <;> omega

/-- Turbo mode never takes longer, because the lower end is no more than what is halved. -/
theorem delay_turbo_le (ms : Nat) : b.delay ms true ≤ b.delay ms false := by
  have hclamp := b.least_le_clamp ms
  show max (b.clamp ms / 2) b.least ≤ b.clamp ms
  omega

theorem half_le_delay_turbo (ms : Nat) : b.delay ms false / 2 ≤ b.delay ms true :=
  Nat.le_max_left (b.clamp ms / 2) b.least

theorem delay_mono (turbo : Bool) : Monotone fun ms => b.delay ms turbo := by
  intro ms ms' hle
  have hclamp := b.clamp_mono hle
  show b.delay ms turbo ≤ b.delay ms' turbo
  unfold delay
  split <;> omega

end DelayBounds

namespace PlaybackConfig

variable {c : PlaybackConfig} {b : DelayBounds}

/-- A clamp between the ends that are configured fails just if they have no bounds. -/
theorem clamp?_eq_map (c : PlaybackConfig) (ms : Nat) :
    clamp? c.minDelayMs c.maxDelayMs ms = c.bounds?.map (·.clamp ms) := by
  unfold bounds?
  split
  next hordered => exact DelayBounds.clamp?_eq ⟨_, _, hordered⟩ ms
  next hreversed => exact if_neg hreversed

theorem ends_of_bounds? (h : c.bounds? = some b) :
    b.least = c.minDelayMs ∧ b.most = c.maxDelayMs := by
  unfold bounds? at h
  split at h
  · obtain rfl := Option.some.inj h
    exact ⟨rfl, rfl⟩
  · cases h

end PlaybackConfig

/-- What the delay between two steps depends on. Its ends need not be in order. -/
structure Tempo where
  least : Nat
  most : Nat
  speedMs : Nat
  turbo : Bool
deriving DecidableEq, Repr

/-- The tempo at a speed and in a mode, with the ends as configured. -/
def PlaybackConfig.tempo (c : PlaybackConfig) (speedMs : Nat) (turbo : Bool) : Tempo :=
  ⟨c.minDelayMs, c.maxDelayMs, speedMs, turbo⟩

namespace Tempo

/-- Sets the speed, as near to the one asked for as the ends let. -/
def setSpeed? (t : Tempo) (ms : Nat) : Option Tempo :=
  (clamp? t.least t.most ms).map fun speed => { t with speedMs := speed }

def setTurbo (t : Tempo) (on : Bool) : Tempo := { t with turbo := on }

/-- The delay between two steps. The speed is clamped each time the delay is asked for. -/
def delay? (t : Tempo) : Option Nat :=
  (clamp? t.least t.most t.speedMs).map fun ms => if t.turbo then max (ms / 2) t.least else ms

/-- The tempo to begin with: the one that is configured, at its speed clamped. -/
def ofConfig? (c : PlaybackConfig) : Option Tempo := (c.tempo c.speedMs c.turbo).setSpeed? c.speedMs

end Tempo

theorem PlaybackConfig.delay?_tempo {c : PlaybackConfig} {b : DelayBounds} (h : c.bounds? = some b)
    (ms : Nat) (turbo : Bool) : (c.tempo ms turbo).delay? = some (b.delay ms turbo) := by
  unfold Tempo.delay? tempo
  rw [c.clamp?_eq_map, h, ← (ends_of_bounds? h).1]
  rfl

namespace Playback

variable {σ : Type} {w : Workload σ} {p q r : Playback σ}

def tempo (p : Playback σ) : Tempo := ⟨p.bounds.least, p.bounds.most, p.status.speedMs, p.turbo⟩

theorem setSpeed?_tempo (p : Playback σ) (ms : Nat) :
    p.tempo.setSpeed? ms = some (p.setSpeed ms).1.tempo := by
  unfold Tempo.setSpeed? tempo
  rw [p.bounds.clamp?_eq]
  rfl

theorem delay?_tempo (p : Playback σ) : p.tempo.delay? = some p.delay := by
  unfold Tempo.delay? tempo
  rw [p.bounds.clamp?_eq]
  rfl

/-- Playback begins with the tempo that is configured. -/
theorem ofConfig?_tempo {c : PlaybackConfig} {b : DelayBounds} (h : c.bounds? = some b) (work : σ) :
    Tempo.ofConfig? c = some (new c b work).tempo := by
  obtain ⟨hleast, hmost⟩ := PlaybackConfig.ends_of_bounds? h
  unfold Tempo.ofConfig? Tempo.setSpeed? PlaybackConfig.tempo tempo
  rw [c.clamp?_eq_map, h, ← hleast, ← hmost]
  rfl

theorem delay_eq_of_tempo (h : q.tempo = p.tempo) : q.delay = p.delay := by
  have hdelay : some q.delay = some p.delay := by rw [← delay?_tempo, ← delay?_tempo, h]
  exact Option.some.inj hdelay

/-! ## At one moment -/

/-- What playback comes to without time going by: its tempo stays the same, and a loop that was put to
sleep sleeps for the delay of that tempo. -/
structure InTempo (p q : Playback σ) : Prop where
  tempo : q.tempo = p.tempo
  clock : q.clock = p.clock
  alarm : ∀ s ∈ q.sleeping, s ∈ p.sleeping ∨ s.alarm = p.clock + p.delay

theorem InTempo.trans (h : p.InTempo q) (h' : q.InTempo r) : p.InTempo r where
  tempo := h'.tempo.trans h.tempo
  clock := h'.clock.trans h.clock
  alarm s hs := by
    rcases h'.alarm s hs with hold | hnew
    · exact h.alarm s hold
    · rw [h.clock, delay_eq_of_tempo h.tempo] at hnew
      exact Or.inr hnew

/-- Where no loop is put to sleep. -/
theorem inTempo_of_eq (htempo : q.tempo = p.tempo) (hclock : q.clock = p.clock)
    (hsleeping : q.sleeping = p.sleeping) : p.InTempo q :=
  ⟨htempo, hclock, fun _ hs => Or.inl (hsleeping ▸ hs)⟩

theorem InTempo.refl (p : Playback σ) : p.InTempo p := inTempo_of_eq rfl rfl rfl

theorem inTempo_play (p : Playback σ) : p.InTempo p.play.1 := by
  unfold play
  split <;> exact inTempo_of_eq rfl rfl rfl

theorem inTempo_pause (p : Playback σ) : p.InTempo p.pause := inTempo_of_eq rfl rfl rfl

theorem inTempo_reset (p : Playback σ) : p.InTempo p.reset := inTempo_of_eq rfl rfl rfl

theorem inTempo_toggle (p : Playback σ) : p.InTempo p.toggle := by
  unfold toggle
  split
  · exact p.inTempo_reset.trans p.reset.inTempo_play
  · split
    · exact p.inTempo_pause
    · exact p.inTempo_play

theorem inTempo_resumeFromCompleted (p : Playback σ) : p.InTempo p.resumeFromCompleted.1 := by
  unfold resumeFromCompleted
  split <;> exact inTempo_of_eq rfl rfl rfl

theorem inTempo_complete (p : Playback σ) : p.InTempo p.complete := by
  unfold complete
  split <;> exact inTempo_of_eq rfl rfl rfl

theorem inTempo_fail (p : Playback σ) (e : SessionFailure) : p.InTempo (p.fail e) :=
  inTempo_of_eq rfl rfl rfl

theorem inTempo_answer (p : Playback σ) (ticket : Nat) (r : Except SessionFailure Bool) :
    p.InTempo (p.answer ticket r) := inTempo_of_eq rfl rfl rfl

/-- A loop goes to sleep for the delay. -/
theorem inTempo_sleep (p : Playback σ) (run : Nat) : p.InTempo (p.sleep run p.delay) := by
  refine ⟨rfl, rfl, fun s hs => ?_⟩
  rcases List.mem_append.mp hs with hold | hnew
  · exact Or.inl hold
  · rw [List.mem_singleton.mp hnew]
    exact Or.inr rfl

/-! ## Steps -/

theorem inTempo_afterLoopStep (p : Playback σ) (run : Nat) (outcome : StepOutcome) :
    p.InTempo (p.afterLoopStep run outcome) := by
  unfold afterLoopStep
  split
  · cases outcome with
    | more => exact p.inTempo_sleep run
    | finished => exact p.inTempo_complete
    | failed e => exact p.inTempo_fail e
  · exact .refl p

theorem inTempo_afterHandStep (p : Playback σ) (ticket : Nat) (outcome : StepOutcome) :
    p.InTempo (p.afterHandStep ticket outcome) := by
  cases outcome with
  | more => exact p.inTempo_answer ticket _
  | finished => exact p.inTempo_complete.trans (p.complete.inTempo_answer ticket _)
  | failed e => exact (p.inTempo_fail e).trans ((p.fail e).inTempo_answer ticket _)

/-- A step is counted, which the tempo does not depend on. -/
theorem inTempo_settle (p : Playback σ) (holder : Stepper) (outcome : StepOutcome)
    (waiting : List Stepper) : p.InTempo (p.settle holder outcome waiting) := by
  have hcounted : p.InTempo { p with
      status := if outcome = .more then p.status.countStep else p.status
      gate := .released waiting } := by
    split <;> exact inTempo_of_eq rfl rfl rfl
  unfold settle
  cases holder with
  | loop run => exact hcounted.trans (inTempo_afterLoopStep _ run outcome)
  | hand ticket => exact hcounted.trans (inTempo_afterHandStep _ ticket outcome)

theorem inTempo_takeStep (p : Playback σ) (holder : Stepper) (waiting : List Stepper) :
    p.InTempo (p.takeStep w holder waiting) := by
  have hworked : ∀ (work : σ) (log : Array Event), p.InTempo { p with work := work, log := log } :=
    fun _ _ => inTempo_of_eq rfl rfl rfl
  unfold takeStep
  simp only
  split
  · exact (hworked _ _).trans (inTempo_settle _ holder _ waiting)
  · exact inTempo_of_eq rfl rfl rfl

theorem inTempo_approach (p : Playback σ) (s : Stepper) : p.InTempo (p.approach w s) := by
  unfold approach
  split
  · exact p.inTempo_takeStep s []
  · exact inTempo_of_eq rfl rfl rfl
  · exact inTempo_of_eq rfl rfl rfl

theorem inTempo_goOn (p : Playback σ) (run : Nat) : p.InTempo (p.goOn w run) := by
  unfold goOn
  split
  · exact p.inTempo_approach (.loop run)
  · exact .refl p

theorem inTempo_requestStep (p : Playback σ) : p.InTempo (p.requestStep w).1 := by
  have hticket : p.InTempo { p with tickets := p.tickets + 1 } := inTempo_of_eq rfl rfl rfl
  unfold requestStep
  simp only
  split
  · exact hticket.trans (inTempo_answer _ p.tickets _)
  · split
    · exact hticket.trans ((inTempo_pause _).trans (inTempo_approach _ (.hand p.tickets)))
    · exact hticket.trans (inTempo_approach _ (.hand p.tickets))

/-! ## Moves -/

/-- A move keeps the tempo. The loop of a run that is held up is put to sleep by it until it looks
again. -/
theorem inTempo_move (p : Playback σ) (m : Move) : p.InTempo (p.move w m) ∨
    ∃ q run, p.InTempo q ∧ p.status.isHeld = true ∧ p.move w m = q.sleep run p.pausePollMs := by
  cases m with
  | begin run =>
    have hoff : p.InTempo { p with fresh := p.fresh.erase run } := inTempo_of_eq rfl rfl rfl
    exact Or.inl (hoff.trans (inTempo_goOn _ run))
  | wake s =>
    have hoff : p.InTempo { p with sleeping := p.sleeping.erase s } :=
      ⟨rfl, rfl, fun _ hs => Or.inl (List.mem_of_mem_erase hs)⟩
    show p.InTempo (p.wake w s) ∨ ∃ q run, _ ∧ _ ∧ p.wake w s = _
    unfold wake
    simp only
    split
    · -- it is held up
      rename_i hholds
      exact Or.inr ⟨_, s.run, hoff, (Bool.and_eq_true_iff.mp hholds).2, rfl⟩
    · exact Or.inl (hoff.trans (inTempo_goOn _ s.run))
  | proceed =>
    show p.InTempo (p.proceed w) ∨ ∃ q run, _ ∧ _ ∧ p.proceed w = _
    unfold proceed
    split
    · exact Or.inl (p.inTempo_takeStep _ _)
    · split
      · exact Or.inl (p.inTempo_takeStep _ _)
      · -- a loop that may not take its step gives the gate up
        rename_i run waiting _ _
        have hreleased : p.InTempo { p with gate := .released waiting } := inTempo_of_eq rfl rfl rfl
        simp only
        split
        · rename_i hholds
          exact Or.inr ⟨_, run, hreleased, (Bool.and_eq_true_iff.mp hholds).2, rfl⟩
        · exact Or.inl hreleased
    · exact Or.inl (.refl p)
  | land =>
    refine Or.inl ?_
    show p.InTempo p.land
    unfold land
    split
    · exact p.inTempo_settle _ _ _
    · exact .refl p

theorem tempo_move (p : Playback σ) (m : Move) : (p.move w m).tempo = p.tempo := by
  rcases p.inTempo_move (w := w) m with hmoved | ⟨q, run, hoff, -, hslept⟩
  · exact hmoved.tempo
  · rw [hslept]
    exact hoff.tempo

/-- A loop that a move puts to sleep sleeps for the delay, or until it looks again if it is held up. -/
theorem alarm_move (p : Playback σ) (m : Move) {s : Sleeper} (hs : s ∈ (p.move w m).sleeping) :
    s ∈ p.sleeping ∨ s.alarm = p.clock + p.delay ∨
      (p.status.isHeld = true ∧ s.alarm = p.clock + p.pausePollMs) := by
  rcases p.inTempo_move (w := w) m with hmoved | ⟨q, run, hoff, hheld, hslept⟩
  · exact (hmoved.alarm s hs).imp_right Or.inl
  · rw [hslept] at hs
    rcases List.mem_append.mp hs with hold | hnew
    · exact (hoff.alarm s hold).imp_right Or.inl
    · rw [List.mem_singleton.mp hnew]
      exact Or.inr (Or.inr ⟨hheld, congrArg (· + p.pausePollMs) hoff.clock⟩)

/-! ## As time goes by -/

/-- However long playback goes on of itself, its tempo stays the same. The induction is on the moves
that it may make. -/
theorem tempo_advance (holds : Playback σ → Bool) (deadline : Option Nat) :
    ∀ (fuel : Nat) (p : Playback σ), (p.advance w holds deadline fuel).tempo = p.tempo
  | 0, _ => rfl
  | fuel + 1, p => by
    have helapsed : (deadline.elim p p.elapseTo).tempo = p.tempo := by
      cases deadline <;> rfl
    unfold advance
    split
    · rfl
    · split
      next m _ => exact (tempo_advance holds deadline fuel _).trans (p.tempo_move m)
      next time _ =>
        split
        · exact tempo_advance holds deadline fuel (p.elapseTo time)
        · exact helapsed
      next => exact helapsed

theorem tempo_stepForward (p : Playback σ) (fuel : Nat) : (p.stepForward w fuel).1.tempo = p.tempo := by
  have hrequested := (p.inTempo_requestStep (w := w)).tempo
  unfold stepForward
  generalize p.requestStep w = request at hrequested ⊢
  obtain ⟨q, ticket⟩ := request
  exact (tempo_advance _ none fuel q).trans hrequested

end Playback

end Retrace
