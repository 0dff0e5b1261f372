import Mathlib.Algebra.GroupWithZero.Nat
import Mathlib.Algebra.Order.BigOperators.Group.List
import Mathlib.Algebra.Order.Group.Nat
import Retrace.Proofs.Playback.Order
/-!
# How long playback takes to come to rest

Playback that goes on of itself makes one move after the other, until what it is waited for holds, the
deadline has come, or nothing is left to happen: it settles (`Settles`). The moves that it may make are
bounded, and if the bound is not met then more of them make no difference (`Settles.advance_eq`).

Two bounds are enough for all that a session does. Up to a deadline each loop moves at once, and from
then on the clock stands still for one move at a time (`Orderly.exists_settles_by`). Without a deadline
each step leaves less to be done (`Orderly.exists_settles`), unless a live loop is held up: then it
looks again for ever, and whoever waits for it to end waits for ever too (`HeldUp.advance`).
-/

namespace Retrace

/-- The weight of a loop that is asleep, which is two if its alarm has come. -/
def Sleeper.weight (asleep clock : Nat) (s : Sleeper) : Nat :=
  if s.alarm ≤ clock then 2 else asleep

/-- Work of which each step leaves less to be done, as long as `P` holds of it. -/
structure Workload.Wearing {σ : Type} (w : Workload σ) (P : σ → Prop) (left : σ → Nat) : Prop where
  keeps : ∀ n x, P x → P (w n x).work
  le : ∀ n x, P x → left (w n x).work ≤ left x
  lt : ∀ n x, P x → (w n x).outcome = .more → left (w n x).work < left x

namespace Playback

variable {σ : Type} {w : Workload σ} {holds : Playback σ → Bool} {deadline : Option Nat}
  {p p' q : Playback σ} {n : Nat}

/-- Left to itself playback comes to rest as `p'` within some moves. -/
inductive Settles (w : Workload σ) (holds : Playback σ → Bool) (deadline : Option Nat) :
    Nat → Playback σ → Playback σ → Prop where
  /-- What it was waited for holds. -/
  | met {n : Nat} {p : Playback σ} (h : holds p = true) : Settles w holds deadline n p p
  /-- Nothing happens before the deadline. -/
  | late {n : Nat} {p : Playback σ} (time : Nat) (hgo : holds p = false)
      (hnext : p.next = .at time) (hlate : deadline.all (time < ·) = false) :
      Settles w holds deadline n p (deadline.elim p p.elapseTo)
  /-- Nothing happens any more. -/
  | rests {n : Nat} {p : Playback σ} (hgo : holds p = false) (hnext : p.next = .never) :
      Settles w holds deadline n p (deadline.elim p p.elapseTo)
  | moves {n : Nat} {p p' : Playback σ} (m : Move) (hgo : holds p = false)
      (hnext : p.next = .now m) (h : Settles w holds deadline n (p.move w m) p') :
      Settles w holds deadline (n + 1) p p'
  | passes {n : Nat} {p p' : Playback σ} (time : Nat) (hgo : holds p = false)
      (hnext : p.next = .at time) (hearly : deadline.all (time < ·) = true)
      (h : Settles w holds deadline n (p.elapseTo time) p') :
      Settles w holds deadline (n + 1) p p'

/-- Whoever may make more moves than it takes comes to the same end. -/
theorem Settles.advance_eq (h : Settles w holds deadline n p p') :
    ∀ {fuel : Nat}, n < fuel → p.advance w holds deadline fuel = p' := by
  induction h with
  | met h => exact fun _ => advance_of_holds h deadline _
  | late time hgo hnext hlate =>
    intro fuel hfuel
    obtain ⟨fuel, rfl⟩ := Nat.exists_eq_succ_of_ne_zero (Nat.ne_zero_of_lt hfuel)
    unfold advance
    rw [hgo, if_neg Bool.false_ne_true, hnext]
    simp only [hlate, Bool.false_eq_true, if_false]
  | rests hgo hnext =>
    intro fuel hfuel
    obtain ⟨fuel, rfl⟩ := Nat.exists_eq_succ_of_ne_zero (Nat.ne_zero_of_lt hfuel)
    unfold advance
    rw [hgo, if_neg Bool.false_ne_true, hnext]
  | moves m hgo hnext _ ih =>
    intro fuel hfuel
    obtain ⟨fuel, rfl⟩ := Nat.exists_eq_succ_of_ne_zero (Nat.ne_zero_of_lt hfuel)
    unfold advance
    rw [hgo, if_neg Bool.false_ne_true, hnext]
    exact ih (by omega)
  | passes time hgo hnext hearly _ ih =>
    intro fuel hfuel
    obtain ⟨fuel, rfl⟩ := Nat.exists_eq_succ_of_ne_zero (Nat.ne_zero_of_lt hfuel)
    unfold advance
    rw [hgo, if_neg Bool.false_ne_true, hnext]
    simp only [hearly, if_true]
    exact ih (by omega)

/-- Playback settles if something decreases with every move and whenever time passes. -/
theorem exists_settles_of_measure {I : Playback σ → Prop} {μ : Playback σ → Nat}
    (hmove : ∀ p m, I p → p.next = .now m → I (p.move w m) ∧ μ (p.move w m) < μ p)
    (hpass : ∀ p time, I p → p.next = .at time → deadline.all (time < ·) = true →
      I (p.elapseTo time) ∧ μ (p.elapseTo time) < μ p) :
    ∀ (n : Nat) (p : Playback σ), I p → μ p ≤ n → ∃ p', Settles w holds deadline n p p'
  | n, p, hp, hn => by
    by_cases hgo : holds p = true
    · exact ⟨p, .met hgo⟩
    rw [Bool.not_eq_true] at hgo
    cases hnext : p.next with
    | never => exact ⟨_, .rests hgo hnext⟩
    | now m =>
      obtain ⟨hkept, hless⟩ := hmove p m hp hnext
      obtain ⟨n, rfl⟩ := Nat.exists_eq_succ_of_ne_zero (Nat.ne_zero_of_lt (Nat.lt_of_lt_of_le hless hn))
      obtain ⟨p', h⟩ := exists_settles_of_measure hmove hpass n (p.move w m) hkept (by omega)
      exact ⟨p', .moves m hgo hnext h⟩
    | «at» time =>
      cases hearly : deadline.all (time < ·) with
      | false => exact ⟨_, .late time hgo hnext hearly⟩
      | true =>
        obtain ⟨hkept, hless⟩ := hpass p time hp hnext hearly
        obtain ⟨n, rfl⟩ := Nat.exists_eq_succ_of_ne_zero (Nat.ne_zero_of_lt (Nat.lt_of_lt_of_le hless hn))
        obtain ⟨p', h⟩ := exists_settles_of_measure hmove hpass n (p.elapseTo time) hkept (by omega)
        exact ⟨p', .passes time hgo hnext hearly h⟩

/-! ## What the loops still have to do -/

/-- The weight of all loops. -/
def burden (asleep : Nat) (p : Playback σ) : Nat :=
  2 * p.fresh.length + (p.sleeping.map (Sleeper.weight asleep p.clock)).sum

theorem SameLoops.burden_eq (h : p.SameLoops q) (asleep : Nat) : q.burden asleep = p.burden asleep := by
  unfold burden
  rw [h.fresh, h.sleeping, h.clock]

/-- A loop that goes to sleep for some time is asleep. -/
theorem burden_sleep (p : Playback σ) (asleep run : Nat) {ms : Nat} (hms : 0 < ms) :
    (p.sleep run ms).burden asleep = p.burden asleep + asleep := by
  have hweight : Sleeper.weight asleep p.clock ⟨run, p.clock + ms⟩ = asleep := by
    unfold Sleeper.weight
    rw [if_neg]
    show ¬ p.clock + ms ≤ p.clock
    omega
  unfold burden sleep
  simp only [List.map_append, List.map_singleton, List.sum_append, List.sum_singleton, hweight]
  omega

theorem burden_begin {run : Nat} (hmem : run ∈ p.fresh) (asleep : Nat) :
    p.burden asleep = ({ p with fresh := p.fresh.erase run } : Playback σ).burden asleep + 2 := by
  have hlength := List.length_erase_of_mem hmem
  have hpos := List.length_pos_of_mem hmem
  unfold burden
  simp only
  omega

theorem burden_wake {s : Sleeper} (hmem : s ∈ p.sleeping) (asleep : Nat) :
    p.burden asleep = ({ p with sleeping := p.sleeping.erase s } : Playback σ).burden asleep
      + s.weight asleep p.clock := by
  have hsum := List.sum_map_erase (Sleeper.weight asleep p.clock) hmem
  unfold burden
  simp only
  omega

theorem burden_le (p : Playback σ) {asleep most : Nat} (h : 2 ≤ most) (hasleep : asleep ≤ most) :
    p.burden asleep ≤ most * (p.fresh.length + p.sleeping.length) := by
  have hsum : (p.sleeping.map (Sleeper.weight asleep p.clock)).sum
      ≤ (p.sleeping.map (Sleeper.weight asleep p.clock)).length • most := by
    refine List.sum_le_card_nsmul _ _ fun x hx => ?_
    obtain ⟨s, -, rfl⟩ := List.mem_map.mp hx
    unfold Sleeper.weight
    split <;> assumption
  rw [List.length_map, Nat.nsmul_eq_mul] at hsum
  unfold burden
  have hfresh : 2 * p.fresh.length ≤ most * p.fresh.length := Nat.mul_le_mul_right _ h
  rw [Nat.mul_add, Nat.mul_comm most p.sleeping.length]
  omega

/-- What is left when the loop that is due has been taken off: it was ready, or it is dead. -/
structure Off (p q : Playback σ) (run : Nat) (asleep : Nat) : Prop where
  eq : q = { p with fresh := q.fresh, sleeping := q.sleeping }
  sub : ∀ s ∈ q.sleeping, s ∈ p.sleeping
  weight : ∃ c, p.burden asleep = q.burden asleep + c ∧ (p.isLive run = true → c = 2)
    ∧ (0 < asleep → 0 < c)

theorem Off.isLive_eq {run asleep : Nat} (h : Off p q run asleep) (other : Nat) :
    q.isLive other = p.isLive other := by
  rw [h.eq]
  rfl

/-- The loop sleeps for some time after it took a step. -/
theorem Off.delay_pos {run asleep : Nat} (h : Off p q run asleep) (ho : p.Orderly) :
    0 < (q.stepped w).delay := by
  have hbounds : (q.stepped w).bounds = p.bounds := by
    rw [h.eq]
    rfl
  have hleast : 0 < (q.stepped w).bounds.least := by
    rw [hbounds]
    exact ho.least_pos
  exact Nat.lt_of_lt_of_le hleast (DelayBounds.least_le_delay _ _ _)

/-- A move that is due lets a loop go on, or sleep again if it is held up. -/
theorem Orderly.exists_turn (hw : w.Instant) (h : p.Orderly) {m : Move} (hnext : p.next = .now m)
    (asleep : Nat) : (p.move w m).Orderly ∧ ∃ (q : Playback σ) (run : Nat), Off p q run asleep ∧
      (Turn w q run (p.move w m) ∨ (p.isLive run = true ∧ p.status.isHeld = true
        ∧ p.move w m = q.sleep run p.pausePollMs ∧ ∃ s ∈ p.sleeping, s.run = run)) := by
  cases h.coming with
  | begins run waiting hfresh hnow =>
    obtain rfl : Move.begin run = m := Next.now.inj (hnow.symm.trans hnext)
    have hmem : run ∈ p.fresh := by
      rw [hfresh]
      exact List.mem_cons_self
    refine ⟨h.begin hw hmem, { p with fresh := p.fresh.erase run }, run, ?_,
      Or.inl (turn_begin hw h.free run)⟩
    exact ⟨rfl, fun s => id, 2, burden_begin hmem asleep, fun _ => rfl, fun _ => Nat.two_pos⟩
  | wakes s hfresh hfind hnow =>
    obtain rfl : Move.wake s = m := Next.now.inj (hnow.symm.trans hnext)
    have hmem := List.mem_of_find?_eq_some hfind
    have hdue : p.wakes s = true := List.find?_some hfind
    refine ⟨h.wake hw hmem, { p with sleeping := p.sleeping.erase s }, s.run,
      ⟨rfl, fun _ => List.mem_of_mem_erase, _, burden_wake hmem asleep, fun hlive => ?_, fun hpos => ?_⟩,
      ?_⟩
    · unfold Playback.wakes at hdue
      rw [hlive, Bool.not_true, Bool.false_or, decide_eq_true_eq] at hdue
      exact if_pos hdue
    · unfold Sleeper.weight
      split <;> omega
    · rcases turn_wake hw h.free s with ⟨hlive, hheld, hwake⟩ | hturn
      · exact Or.inr ⟨hlive, hheld, hwake, s, hmem, rfl⟩
      · exact Or.inl hturn
  | waits s hfresh hsleeping hlive halarm hat => exact nomatch hat.symm.trans hnext
  | rests hfresh hsleeping hnever => exact nomatch hnever.symm.trans hnext

/-- When time passes the only loop that is asleep becomes ready. -/
theorem Orderly.pass (h : p.Orderly) {time : Nat} (hnext : p.next = .at time) (asleep : Nat) :
    p.clock < time ∧ p.burden asleep = asleep ∧ (p.elapseTo time).burden asleep = 2 := by
  cases h.coming with
  | begins run waiting hfresh hnow => exact nomatch hnow.symm.trans hnext
  | wakes s hfresh hfind hnow => exact nomatch hnow.symm.trans hnext
  | rests hfresh hsleeping hnever => exact nomatch hnever.symm.trans hnext
  | waits s hfresh hsleeping hlive halarm hat =>
    obtain rfl : s.alarm = time := Next.at.inj (hat.symm.trans hnext)
    have hafter : s.alarm ≤ (p.elapseTo s.alarm).clock := Nat.le_max_right _ _
    have hfresh' : (p.elapseTo s.alarm).fresh = [] := hfresh
    have hsleeping' : (p.elapseTo s.alarm).sleeping = [s] := hsleeping
    refine ⟨halarm, ?_, ?_⟩
    · unfold burden Sleeper.weight
      rw [hfresh, hsleeping]
      simp [Nat.not_le.mpr halarm]
    · unfold burden Sleeper.weight
      rw [hfresh', hsleeping']
      simp [hafter]

/-! ## Up to a deadline -/

/-- Before the deadline each loop moves, and after that a millisecond passes for two moves at most. -/
theorem Orderly.exists_settles_by (hw : w.Instant) (h : p.Orderly) (holds : Playback σ → Bool)
    (time : Nat) :
    ∃ p', Settles w holds (some time) (p.burden 1 + 2 * (time - p.clock)) p p' := by
  refine exists_settles_of_measure (I := Orderly)
    (μ := fun q => q.burden 1 + 2 * (time - q.clock)) ?_ ?_ _ p h (Nat.le_refl _)
  · intro q m hq hnext
    obtain ⟨hkept, q', run, hoff, hturn⟩ := hq.exists_turn hw hnext 1
    obtain ⟨c, hweight, hready, hpos⟩ := hoff.weight
    have hc := hpos Nat.one_pos
    have hclock : q'.clock = q.clock := by rw [hoff.eq]
    refine ⟨hkept, ?_⟩
    rcases hturn with hturn | ⟨hheld, -, heq, -⟩
    · cases hturn with
      | ends hsame =>
        rw [hsame.burden_eq, hsame.clock, hclock]
        omega
      | steps hgo hrunning hmore heq =>
        have hc := hready ((hoff.isLive_eq run).symm.trans hgo)
        rw [heq, burden_sleep _ _ _ (hoff.delay_pos hq), (sameLoops_stepped q').burden_eq]
        show _ + 2 * (time - q'.clock) < _
        rw [hclock]
        omega
    · have hc := hready hheld
      rw [heq, burden_sleep _ _ _ hq.poll_pos]
      show _ + 2 * (time - q'.clock) < _
      rw [hclock]
      omega
  · intro q next hq hnext hearly
    obtain ⟨hclock, hbefore, hafter⟩ := hq.pass hnext 1
    have hearly : next < time := by simpa using hearly
    refine ⟨hq.elapseTo next, ?_⟩
    rw [hbefore, hafter]
    show 2 + 2 * (time - max q.clock next) < _
    omega

/-! ## Without a deadline -/

/-- No loop that is asleep is held up. -/
def Unheld (p : Playback σ) : Prop :=
  p.status.isHeld = true → ∀ s ∈ p.sleeping, p.isLive s.run = false

theorem isHeld_stepped (p : Playback σ) : (p.stepped w).status.isHeld = p.status.isHeld := by
  unfold stepped
  simp only
  split <;> rfl

theorem Off.unheld {run asleep : Nat} (h : Off p q run asleep) (hunheld : p.Unheld) : q.Unheld := by
  intro hheld s hs
  have hstatus : q.status = p.status := by rw [h.eq]
  exact (h.isLive_eq s.run).trans (hunheld (hstatus ▸ hheld) s (h.sub s hs))

/-- No loop gets held up by its own turn. -/
theorem Turn.unheld {run : Nat} (h : Turn w p run q) (hunheld : p.Unheld) : q.Unheld := by
  intro hheld s hs
  cases h with
  | ends hsame _ hsettled =>
    -- the loops still asleep were so before
    obtain ⟨hstatus, hcancelled⟩ := hsettled hheld
    rw [hsame.sleeping] at hs
    rw [hstatus] at hheld
    have hdead := hunheld hheld s hs
    unfold isLive at hdead ⊢
    rw [hsame.run, hcancelled]
    exact hdead
  | steps _ hrunning _ heq =>
    -- playback that took a step is not held up
    rw [heq] at hheld
    have hheld : p.status.isHeld = true := (isHeld_stepped p).symm.trans hheld
    exact absurd hrunning (Status.not_isRunning_of_paused (Bool.and_eq_true_iff.mp hheld).2)

/-- The turn of a loop leaves no more to be done. -/
theorem Turn.wears {P : σ → Prop} {left : σ → Nat} (hwear : Workload.Wearing w P left) {run : Nat}
    (h : Turn w p run q) (hwork : P p.work) : P q.work ∧ left q.work ≤ left p.work := by
  have htaken := And.intro (hwear.keeps p.status.currentStep _ hwork)
    (hwear.le p.status.currentStep _ hwork)
  cases h with
  | ends _ hsettled =>
    rcases hsettled with hkept | hstepped
    · rw [hkept]
      exact ⟨hwork, Nat.le_refl _⟩
    · rw [hstepped]
      exact htaken
  | steps _ _ _ heq =>
    rw [heq]
    exact htaken

/-- Unless a loop is held up, playback comes to rest when there is no more to do. -/
theorem Orderly.exists_settles (hw : w.Instant) {P : σ → Prop} {left : σ → Nat}
    (hwear : Workload.Wearing w P left) (h : p.Orderly) (hunheld : p.Unheld) (hwork : P p.work)
    (holds : Playback σ → Bool) :
    ∃ p', Settles w holds none (p.burden 3 + 2 * left p.work) p p' := by
  refine exists_settles_of_measure (I := fun q => q.Orderly ∧ q.Unheld ∧ P q.work)
    (μ := fun q => q.burden 3 + 2 * left q.work) ?_ ?_ _ p ⟨h, hunheld, hwork⟩ (Nat.le_refl _)
  · rintro q m ⟨hq, hqheld, hqwork⟩ hnext
    obtain ⟨hkept, q', run, hoff, hturn⟩ := hq.exists_turn hw hnext 3
    obtain ⟨c, hweight, hready, hpos⟩ := hoff.weight
    have hsame : q'.work = q.work := by rw [hoff.eq]
    rw [← hsame] at hqwork ⊢
    rcases hturn with hturn | ⟨hlive, hheld, -, s, hs, hsrun⟩
    · obtain ⟨hkeeps, hle⟩ := hturn.wears hwear hqwork
      refine ⟨⟨hkept, hturn.unheld (hoff.unheld hqheld), hkeeps⟩, ?_⟩
      cases hturn with
      | ends hsame =>
        have hc := hpos (by omega)
        rw [hsame.burden_eq]
        omega
      | steps hlive hrunning hmore heq =>
        have hc := hready ((hoff.isLive_eq run).symm.trans hlive)
        have hlt : left (q.move w m).work < left q'.work := by
          rw [heq]
          exact hwear.lt _ _ hqwork hmore
        have hburden : (q.move w m).burden 3 = q'.burden 3 + 3 := by
          rw [heq, burden_sleep _ _ _ (hoff.delay_pos hq), (sameLoops_stepped q').burden_eq]
        omega
    · -- a loop that is held up looks again, but there is none
      exact absurd (hqheld hheld s hs) (by rw [hsrun, hlive]; decide)
  · rintro q next ⟨hq, hqheld, hqwork⟩ hnext -
    obtain ⟨-, hbefore, hafter⟩ := hq.pass hnext 3
    refine ⟨⟨hq.elapseTo next, hqheld, hqwork⟩, ?_⟩
    rw [hbefore, hafter]
    show 2 + 2 * left q.work < _
    omega

/-- Playback in which a live loop of a run is asleep and held up. -/
structure HeldUp (p : Playback σ) (run : Nat) : Prop where
  free : p.gate = .free
  held : p.status.isHeld = true
  live : p.isLive run = true
  asleep : ∃ s ∈ p.sleeping, s.run = run

theorem goOn_of_held (hheld : p.status.isHeld = true) (run : Nat) : p.goOn w run = p := by
  have hpaused := (Bool.and_eq_true_iff.mp hheld).2
  refine goOn_of_not ?_
  rw [Bool.eq_false_iff.mpr (Status.not_isRunning_of_paused hpaused), Bool.and_false]

theorem HeldUp.move {run : Nat} (h : p.HeldUp run) (m : Move) : (p.move w m).HeldUp run := by
  obtain ⟨s, hs, hsrun⟩ := h.asleep
  cases m with
  | begin other =>
    show HeldUp (p.begin w other) run
    unfold begin
    rw [goOn_of_held (by exact h.held)]
    exact ⟨h.free, h.held, h.live, s, hs, hsrun⟩
  | wake other =>
    show HeldUp (p.wake w other) run
    unfold wake
    simp only
    split
    · -- it sleeps again, and so does the loop of the run if that is the one
      refine ⟨h.free, h.held, h.live, ?_⟩
      by_cases hsame : s = other
      · refine ⟨⟨other.run, p.clock + p.pausePollMs⟩, List.mem_append_right _ ?_, ?_⟩
        · exact List.mem_singleton_self _
        · rw [← hsame]
          exact hsrun
      · exact ⟨s, List.mem_append_left _ ((List.mem_erase_of_ne hsame).mpr hs), hsrun⟩
    · rename_i hends
      rw [goOn_of_held (by exact h.held)]
      have hne : s ≠ other := by
        rintro rfl
        refine hends ?_
        have hlive : p.isLive s.run = true := by
          rw [hsrun]
          exact h.live
        exact Bool.and_eq_true_iff.mpr ⟨hlive, h.held⟩
      exact ⟨h.free, h.held, h.live, s, (List.mem_erase_of_ne hne).mpr hs, hsrun⟩
  | proceed =>
    rw [move_proceed_of_free h.free]
    exact h
  | land =>
    rw [move_land_of_free h.free]
    exact h

theorem HeldUp.hasLoop {run : Nat} (h : p.HeldUp run) : p.hasLoop run = true := by
  obtain ⟨s, hs, hsrun⟩ := h.asleep
  unfold Playback.hasLoop
  have hany : p.sleeping.any (·.run == run) = true :=
    List.any_eq_true.mpr ⟨s, hs, by rw [hsrun]; exact beq_self_eq_true run⟩
  rw [hany, Bool.or_true, Bool.true_or]

/-- However many moves are made, a loop that is held up does not end. -/
theorem HeldUp.advance {run : Nat} : ∀ (fuel : Nat) {p : Playback σ}, p.HeldUp run →
    (p.advance w (fun q => !q.hasLoop run) none fuel).hasLoop run = true
  | 0, _, h => h.hasLoop
  | fuel + 1, p, h => by
    unfold Playback.advance
    rw [h.hasLoop]
    simp only [Bool.not_true, Bool.false_eq_true, if_false]
    split
    next m _ => exact HeldUp.advance fuel (h.move m)
    next time _ => exact HeldUp.advance fuel ⟨h.free, h.held, h.live, h.asleep⟩
    next => exact h.hasLoop

end Playback

end Retrace
