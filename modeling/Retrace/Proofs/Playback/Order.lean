import Retrace.Proofs.Playback.Instant
import Mathlib.Data.List.Perm.Subperm
/-!
# The loops of playback in order

While nobody is at the gate every loop that has not ended is either about to begin or asleep (`loops`).
They are loops of runs that were started (`Tidy`), and as long as nothing moves out of turn at most one
of them belongs to the latest run (`Orderly`). So when no loop is due, there is one asleep at most, and
what comes next is plain (`Orderly.coming`).
-/

namespace Retrace

/-- The delay between two steps is no shorter than the least one. -/
theorem DelayBounds.least_le_delay (b : DelayBounds) (ms : Nat) (turbo : Bool) :
    b.least ≤ b.delay ms turbo := by
  have hclamp := b.least_le_clamp ms
  unfold delay
  split <;> omega

namespace Playback

variable {σ : Type} {w : Workload σ} {p q r : Playback σ}

/-- The runs of the loops that have not ended, while nobody is at the gate. -/
def loops (p : Playback σ) : List Nat := p.fresh ++ p.sleeping.map Sleeper.run

theorem SameLoops.loops_eq (h : p.SameLoops q) : q.loops = p.loops := by
  unfold loops
  rw [h.fresh, h.sleeping]

/-- Playback where nobody is at the gate, no answer is left to be taken, and every loop is of a run that
was started. -/
structure Tidy (p : Playback σ) : Prop where
  free : p.gate = .free
  answered : p.answers = []
  started : ∀ run ∈ p.loops, run ≤ p.run

/-- Tidy playback that started from nothing and was left to its own moves: at most one loop is of the
latest run, which is the only one that can be waited for. Every wait takes some time. -/
structure Orderly (p : Playback σ) : Prop extends Tidy p where
  numbered : ∀ run ∈ p.loops, 0 < run
  sole : p.loops.count p.run ≤ 1
  awaited : ∀ run, p.awaitable = some run → run = p.run ∧ 0 < run
  poll_pos : 0 < p.pausePollMs
  least_pos : 0 < p.bounds.least

theorem Tidy.of_same (h : p.Tidy) (hsame : p.SameLoops q) : q.Tidy where
  free := hsame.gate.trans h.free
  answered := hsame.answers.trans h.answered
  started run hrun := by
    rw [hsame.run]
    rw [hsame.loops_eq] at hrun
    exact h.started run hrun

theorem Orderly.of_same (h : p.Orderly) (hsame : p.SameLoops q) : q.Orderly where
  toTidy := h.toTidy.of_same hsame
  numbered run hrun := by
    rw [hsame.loops_eq] at hrun
    exact h.numbered run hrun
  sole := by
    rw [hsame.loops_eq, hsame.run]
    exact h.sole
  awaited run hrun := by
    rw [hsame.awaitable] at hrun
    rw [hsame.run]
    exact h.awaited run hrun
  poll_pos := by
    rw [hsame.pausePollMs]
    exact h.poll_pos
  least_pos := by
    rw [hsame.bounds]
    exact h.least_pos

theorem Orderly.elapseTo (h : p.Orderly) (time : Nat) : (p.elapseTo time).Orderly :=
  { h with }

theorem Orderly.waited (h : p.Orderly) (deadline : Option Nat) :
    (deadline.elim p p.elapseTo).Orderly := by
  cases deadline with
  | none => exact h
  | some time => exact h.elapseTo time

/-- A run that is started gets a loop of its own. -/
theorem loops_play (h : p.status.completed = false) :
    p.play.1.run = p.run + 1 ∧ p.play.1.loops.Perm ((p.run + 1) :: p.loops) := by
  unfold Playback.play
  rw [h, if_neg Bool.false_ne_true]
  refine ⟨rfl, ?_⟩
  show (p.fresh ++ [p.run + 1] ++ p.sleeping.map Sleeper.run).Perm _
  rw [List.append_assoc]
  exact List.perm_middle

theorem play_of_completed (h : p.status.completed = true) : p.play.1 = p := by
  unfold Playback.play
  rw [if_pos h]

theorem Tidy.play (h : p.Tidy) : p.play.1.Tidy := by
  cases hcompleted : p.status.completed with
  | true =>
    rw [play_of_completed hcompleted]
    exact h
  | false =>
    obtain ⟨hrun, hloops⟩ := loops_play hcompleted
    have hkept : p.play.1.gate = p.gate ∧ p.play.1.answers = p.answers := by
      unfold Playback.play
      rw [hcompleted, if_neg Bool.false_ne_true]
      exact ⟨rfl, rfl⟩
    refine ⟨hkept.1.trans h.free, hkept.2.trans h.answered, fun run hmem => ?_⟩
    rw [hrun]
    rcases List.mem_cons.mp (hloops.mem_iff.mp hmem) with hnew | hold
    · exact Nat.le_of_eq hnew
    · exact Nat.le_succ_of_le (h.started run hold)

theorem Orderly.play (h : p.Orderly) : p.play.1.Orderly := by
  cases hcompleted : p.status.completed with
  | true =>
    rw [play_of_completed hcompleted]
    exact h
  | false =>
    obtain ⟨hrun, hloops⟩ := loops_play hcompleted
    have hkept : p.play.1.pausePollMs = p.pausePollMs ∧ p.play.1.bounds = p.bounds
        ∧ p.play.1.awaitable = some (p.run + 1) := by
      unfold Playback.play
      rw [hcompleted, if_neg Bool.false_ne_true]
      exact ⟨rfl, rfl, rfl⟩
    obtain ⟨hpoll, hbounds, hawaitable⟩ := hkept
    refine { h.toTidy.play with
      numbered := fun run hmem => ?_, sole := ?_, awaited := fun run hawaited => ?_
      poll_pos := hpoll ▸ h.poll_pos, least_pos := hbounds ▸ h.least_pos }
    · rcases List.mem_cons.mp (hloops.mem_iff.mp hmem) with hnew | hold
      · omega
      · exact h.numbered run hold
    · have hold : p.loops.count (p.run + 1) = 0 := by
        refine List.count_eq_zero.mpr fun hmem => ?_
        have hstarted := h.started _ hmem
        omega
      have hone : p.play.1.loops.count p.play.1.run = 1 := by
        rw [hrun, hloops.count_eq, List.count_cons_self, hold, Nat.zero_add]
      exact Nat.le_of_eq hone
    · obtain rfl := Option.some.inj (hawaitable.symm.trans hawaited)
      exact ⟨hrun.symm, Nat.succ_pos _⟩

theorem Tidy.toggle (h : p.Tidy) : p.toggle.Tidy := by
  unfold Playback.toggle
  split
  · exact (h.of_same p.sameLoops_reset).play
  · split
    · exact h.of_same p.sameLoops_pause
    · exact h.play

theorem Orderly.toggle (h : p.Orderly) : p.toggle.Orderly := by
  unfold Playback.toggle
  split
  · exact (h.of_same p.sameLoops_reset).play
  · split
    · exact h.of_same p.sameLoops_pause
    · exact h.play

/-! ## Loops that go to sleep -/

theorem loops_sleep (p : Playback σ) (run ms : Nat) : (p.sleep run ms).loops = p.loops ++ [run] := by
  unfold loops sleep
  rw [List.map_append, List.append_assoc]
  rfl

/-- A loop that is live is of the latest run, so it may go to sleep. -/
theorem Tidy.sleep (h : p.Tidy) {run : Nat} (hlive : p.isLive run = true) (ms : Nat) :
    (p.sleep run ms).Tidy := by
  refine ⟨h.free, h.answered, fun other hother => ?_⟩
  rw [loops_sleep, List.mem_append, List.mem_singleton] at hother
  rcases hother with hold | hnew
  · exact h.started other hold
  · show other ≤ p.run
    exact Nat.le_of_eq (hnew.trans (isLive_iff.mp hlive).1)

theorem Orderly.sleep (h : p.Orderly) {run : Nat} (hlive : p.isLive run = true) (hpos : 0 < run)
    (hroom : p.loops.count p.run = 0) (ms : Nat) : (p.sleep run ms).Orderly := by
  refine { h with
    toTidy := h.toTidy.sleep hlive ms
    numbered := fun other hother => ?_
    sole := ?_ }
  · rw [loops_sleep, List.mem_append, List.mem_singleton] at hother
    rcases hother with hold | hnew
    · exact h.numbered other hold
    · omega
  · show (p.sleep run ms).loops.count p.run ≤ 1
    rw [loops_sleep, List.count_append, hroom, Nat.zero_add]
    exact List.count_le_length

theorem Tidy.turn (h : p.Tidy) {run : Nat} (ht : Turn w p run q) : q.Tidy := by
  cases ht with
  | ends hsame => exact h.of_same hsame
  | steps hlive hrunning hmore heq =>
    rw [heq]
    exact (h.of_same p.sameLoops_stepped).sleep hlive _

theorem Orderly.turn (h : p.Orderly) {run : Nat} (hpos : 0 < run)
    (hroom : p.isLive run = true → p.loops.count p.run = 0) (ht : Turn w p run q) : q.Orderly := by
  cases ht with
  | ends hsame => exact h.of_same hsame
  | steps hlive hrunning hmore heq =>
    rw [heq]
    exact (h.of_same p.sameLoops_stepped).sleep hlive hpos (hroom hlive) _

/-! ## Taking a loop off the lists -/

/-- A move that is made out of turn finds no more loops than there are. -/
theorem Tidy.move (hw : w.Instant) (h : p.Tidy) (m : Move) : (p.move w m).Tidy := by
  cases m with
  | begin run =>
    have hoff : ({ p with fresh := p.fresh.erase run } : Playback σ).Tidy := by
      refine ⟨h.free, h.answered, fun other hother => h.started other ?_⟩
      exact (List.erase_sublist.append_right _).subset hother
    exact hoff.turn (turn_begin hw h.free run)
  | wake s =>
    have hoff : ({ p with sleeping := p.sleeping.erase s } : Playback σ).Tidy := by
      refine ⟨h.free, h.answered, fun other hother => h.started other ?_⟩
      exact ((List.erase_sublist.map _).append_left _).subset hother
    rcases turn_wake hw h.free s with ⟨hlive, hheld, hwake⟩ | hturn
    · show (p.wake w s).Tidy
      rw [hwake]
      exact hoff.sleep hlive _
    · exact hoff.turn hturn
  | proceed =>
    rw [move_proceed_of_free h.free]
    exact h
  | land =>
    rw [move_land_of_free h.free]
    exact h

/-- Without one of its loops playback is in order, and has room for that loop if it is live. -/
theorem Orderly.without (h : p.Orderly) {run : Nat} (hperm : p.loops.Perm (run :: q.loops))
    (hsame : { p with fresh := q.fresh, sleeping := q.sleeping }.SameLoops q) :
    q.Orderly ∧ 0 < run ∧ (q.isLive run = true → q.loops.count q.run = 0) := by
  have hsub : ∀ other ∈ q.loops, other ∈ p.loops := fun other hother =>
    hperm.mem_iff.mpr (List.mem_cons_of_mem run hother)
  have hcount : (run :: q.loops).count p.run ≤ 1 := by
    rw [← hperm.count_eq]
    exact h.sole
  have hrun : q.run = p.run := hsame.run
  refine ⟨{ free := hsame.gate.trans h.free, answered := hsame.answers.trans h.answered
            started := fun other hother => ?_
            numbered := fun other hother => h.numbered other (hsub other hother)
            sole := ?_, awaited := fun other hother => ?_
            poll_pos := ?_, least_pos := ?_ }, ?_, fun hlive => ?_⟩
  · rw [hrun]
    exact h.started other (hsub other hother)
  · rw [hrun]
    exact Nat.le_trans List.count_le_count_cons hcount
  · rw [hsame.awaitable] at hother
    rw [hrun]
    exact h.awaited other hother
  · rw [hsame.pausePollMs]
    exact h.poll_pos
  · rw [hsame.bounds]
    exact h.least_pos
  · exact h.numbered run (hperm.mem_iff.mpr List.mem_cons_self)
  · have hlatest := (isLive_iff.mp hlive).1
    rw [← hrun, ← hlatest, List.count_cons_self] at hcount
    rw [← hlatest]
    omega

theorem loops_perm_begin {run : Nat} (hmem : run ∈ p.fresh) :
    p.loops.Perm (run :: ({ p with fresh := p.fresh.erase run } : Playback σ).loops) :=
  (List.perm_cons_erase hmem).append_right _

theorem loops_perm_wake {s : Sleeper} (hmem : s ∈ p.sleeping) :
    p.loops.Perm (s.run :: ({ p with sleeping := p.sleeping.erase s } : Playback σ).loops) := by
  have hsleeping := ((List.perm_cons_erase hmem).map Sleeper.run).append_left p.fresh
  exact hsleeping.trans List.perm_middle

theorem Orderly.begin (hw : w.Instant) (h : p.Orderly) {run : Nat} (hmem : run ∈ p.fresh) :
    (p.begin w run).Orderly := by
  obtain ⟨hoff, hpos, hroom⟩ := h.without (loops_perm_begin hmem) (.refl _)
  exact hoff.turn hpos hroom (turn_begin hw h.free run)

theorem Orderly.wake (hw : w.Instant) (h : p.Orderly) {s : Sleeper} (hmem : s ∈ p.sleeping) :
    (p.wake w s).Orderly := by
  obtain ⟨hoff, hpos, hroom⟩ := h.without (loops_perm_wake hmem) (.refl _)
  rcases turn_wake hw h.free s with ⟨hlive, hheld, hwake⟩ | hturn
  · rw [hwake]
    exact hoff.sleep hlive hpos (hroom hlive) _
  · exact hoff.turn hpos hroom hturn

/-! ## What comes next -/

/-- What playback in order does next. -/
inductive Coming (p : Playback σ) : Prop where
  | begins (run : Nat) (waiting : List Nat) (hfresh : p.fresh = run :: waiting)
      (hnext : p.next = .now (.begin run))
  | wakes (s : Sleeper) (hfresh : p.fresh = []) (hfind : p.sleeping.find? p.wakes = some s)
      (hnext : p.next = .now (.wake s))
  /-- The only loop is live and asleep. -/
  | waits (s : Sleeper) (hfresh : p.fresh = []) (hsleeping : p.sleeping = [s])
      (hlive : p.isLive s.run = true) (halarm : p.clock < s.alarm) (hnext : p.next = .at s.alarm)
  | rests (hfresh : p.fresh = []) (hsleeping : p.sleeping = []) (hnext : p.next = .never)

theorem wakes_eq_false_iff {s : Sleeper} :
    p.wakes s = false ↔ p.isLive s.run = true ∧ p.clock < s.alarm := by
  unfold Playback.wakes
  simp

theorem next_of_fresh {run : Nat} {waiting : List Nat} (hfree : p.gate = .free)
    (hfresh : p.fresh = run :: waiting) : p.next = .now (.begin run) := by
  unfold next due? gateDue?
  rw [hfree, hfresh]
  rfl

theorem next_of_wakes {s : Sleeper} (hfree : p.gate = .free) (hfresh : p.fresh = [])
    (hfind : p.sleeping.find? p.wakes = some s) : p.next = .now (.wake s) := by
  unfold next due? gateDue?
  rw [hfree, hfresh, hfind]
  rfl

theorem next_of_asleep {s : Sleeper} (hfree : p.gate = .free) (hfresh : p.fresh = [])
    (hsleeping : p.sleeping = [s]) (hwakes : p.wakes s = false) : p.next = .at s.alarm := by
  unfold next due? gateDue? nextAlarm?
  rw [hfree, hfresh, hsleeping]
  simp [hwakes]

theorem next_of_nothing (hfree : p.gate = .free) (hfresh : p.fresh = [])
    (hsleeping : p.sleeping = []) : p.next = .never := by
  unfold next due? gateDue? nextAlarm?
  rw [hfree, hfresh, hsleeping]
  rfl

/-- Loops that do not wake are live, and of those there is one at most. -/
theorem Orderly.coming (h : p.Orderly) : Coming p := by
  cases hfresh : p.fresh with
  | cons run waiting => exact .begins run waiting hfresh (next_of_fresh h.free hfresh)
  | nil =>
    cases hfind : p.sleeping.find? p.wakes with
    | some s => exact .wakes s hfresh hfind (next_of_wakes h.free hfresh hfind)
    | none =>
      have hasleep : ∀ s ∈ p.sleeping, p.wakes s = false := by
        simpa using hfind
      have hlive : ∀ s ∈ p.sleeping, p.isLive s.run = true ∧ p.clock < s.alarm :=
        fun s hs => wakes_eq_false_iff.mp (hasleep s hs)
      have hcount : p.sleeping.length ≤ 1 := by
        have hall : p.loops = List.replicate p.sleeping.length p.run := by
          unfold loops
          rw [hfresh, List.nil_append, List.eq_replicate_iff]
          refine ⟨List.length_map _, fun run hrun => ?_⟩
          obtain ⟨s, hs, rfl⟩ := List.mem_map.mp hrun
          exact (isLive_iff.mp (hlive s hs).1).1
        have hsole := h.sole
        rw [hall, List.count_replicate_self] at hsole
        exact hsole
      rcases hsleeping : p.sleeping with _ | ⟨s, _ | ⟨_, _⟩⟩
      · exact .rests hfresh hsleeping (next_of_nothing h.free hfresh hsleeping)
      · have hmem : s ∈ p.sleeping := by
          rw [hsleeping]
          exact List.mem_singleton_self s
        obtain ⟨hlives, halarm⟩ := hlive s hmem
        exact .waits s hfresh hsleeping hlives halarm
          (next_of_asleep h.free hfresh hsleeping (hasleep s hmem))
      · rw [hsleeping] at hcount
        simp at hcount

end Playback

end Retrace
