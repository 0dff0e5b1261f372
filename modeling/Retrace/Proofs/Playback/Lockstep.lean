import Retrace.Proofs.Playback.Renewal
import Retrace.Proofs.Playback.SoleLoop
/-!
# Playback that starts over, left to itself

A playback that starts over and a new one make the same moves when they are left to themselves
(`Renews.settles`): before each of them, loops left behind may move, and they end without a trace
(`Renews.catchUp`). So both come to rest alike, whether it is time that passes (`Renews.elapse`) or
somebody waits for the latest loop to end (`Renews.await`).

The moves that each of them may make are counted, and the count must be enough for both. Where a loop is
held up, nobody who waits without a limit comes to an end in either.
-/

namespace Retrace

/-- A move as it is where runs are counted from `base` and the clock is ahead by `late`. -/
def Move.later (base late : Nat) : Move → Move
  | begin run => begin (run + base)
  | wake s => wake (s.later base late)
  | proceed => proceed
  | land => land

namespace Playback

/-- What comes next, as it is where runs are counted from `base` and the clock is ahead by `late`. -/
def Next.later (base late : Nat) : Next → Next
  | now m => now (m.later base late)
  | .at time => .at (time + late)
  | never => never

variable {σ : Type} {w : Workload σ} {p q q' : Playback σ} {base late n : Nat} {old : List Nat}
  {slept : List Sleeper} {holds holds' : Playback σ → Bool} {deadline : Option Nat}

namespace Renews

/-! ## Moves in between -/

theorem catchUp_old (w : Workload σ) (deadline : Option Nat)
    (hgo : ∀ old slept p, Renews base late old slept p q → holds p = false) :
    ∀ (old : List Nat) (p : Playback σ), Renews base late old slept p q →
      ∃ p', Renews base late [] slept p' q ∧
        ∀ n r, Settles w holds deadline n p' r → Settles w holds deadline (n + old.length) p r
  | [], p, h => ⟨p, h, fun _ _ hs => hs⟩
  | run :: old, p, h => by
    obtain ⟨hnext, hstep⟩ := h.begin_old (w := w)
    obtain ⟨p', h', hsettles⟩ := catchUp_old w deadline hgo old (p.begin w run) hstep
    exact ⟨p', h', fun n r hs => .moves (.begin run) (hgo _ _ _ h) hnext (hsettles n r hs)⟩

theorem catchUp_slept (w : Workload σ) (deadline : Option Nat) (hfresh : q.fresh = [])
    (hgo : ∀ old slept p, Renews base late old slept p q → holds p = false) :
    ∀ (slept : List Sleeper) (p : Playback σ), Renews base late [] slept p q →
      ∃ p', Renews base late [] [] p' q ∧
        ∀ n r, Settles w holds deadline n p' r → Settles w holds deadline (n + slept.length) p r
  | [], p, h => ⟨p, h, fun _ _ hs => hs⟩
  | s :: slept, p, h => by
    obtain ⟨hnext, hstep⟩ := h.wake_slept (w := w) hfresh
    obtain ⟨p', h', hsettles⟩ := catchUp_slept w deadline hfresh hgo slept (p.wake w s) hstep
    exact ⟨p', h', fun n r hs => .moves (.wake s) (hgo _ _ _ h) hnext (hsettles n r hs)⟩

/-- With no loop left behind that moves first, the same comes next in both. -/
theorem next_eq (h : Renews base late [] slept p q) (ho : q.Orderly)
    (hslept : q.fresh = [] → slept = []) : p.next = q.next.later base late := by
  have hwakes : ∀ s ∈ q.sleeping, p.wakes (s.later base late) = q.wakes s := by
    intro s hs
    have hpos : 0 < s.run := ho.numbered s.run (List.mem_append_right _ (List.mem_map_of_mem hs))
    have hlive : p.isLive (s.later base late).run = q.isLive s.run := h.isLive hpos
    unfold Playback.wakes
    rw [hlive]
    congr 1
    rw [decide_eq_decide, h.clock]
    exact Nat.add_le_add_iff_right
  cases ho.coming with
  | begins run waiting hfresh hnow =>
    have hpfresh : p.fresh = (run + base) :: waiting.map (· + base) := by
      rw [h.fresh, hfresh]
      rfl
    rw [hnow, next_of_fresh h.free hpfresh]
    rfl
  | wakes s hfresh hfind hnow =>
    have hpfind : p.sleeping.find? p.wakes = some (s.later base late) := by
      rw [h.sleeping, hslept hfresh, List.nil_append]
      obtain ⟨hs, before, after, hsplit, hasleep⟩ := List.find?_eq_some_iff_append.mp hfind
      refine List.find?_eq_some_iff_append.mpr ⟨?_, before.map (Sleeper.later base late),
        after.map (Sleeper.later base late), ?_, ?_⟩
      · rw [hwakes s (List.mem_of_find?_eq_some hfind)]
        exact hs
      · rw [hsplit, List.map_append]
        rfl
      · intro s' hs'
        obtain ⟨s'', hmem, rfl⟩ := List.mem_map.mp hs'
        rw [hwakes s'' (hsplit ▸ List.mem_append_left _ hmem)]
        exact hasleep s'' hmem
    rw [hnow, next_of_wakes h.free (h.fresh_eq_nil hfresh) hpfind]
    rfl
  | waits s hfresh hsleeping hlive halarm hat =>
    have hpsleeping : p.sleeping = [s.later base late] := by
      rw [h.sleeping, hslept hfresh, hsleeping]
      rfl
    have hmem : s ∈ q.sleeping := by
      rw [hsleeping]
      exact List.mem_singleton_self s
    have hasleep : p.wakes (s.later base late) = false :=
      (hwakes s hmem).trans (wakes_eq_false_iff.mpr ⟨hlive, halarm⟩)
    rw [hat, next_of_asleep h.free (h.fresh_eq_nil hfresh) hpsleeping hasleep]
    rfl
  | rests hfresh hsleeping hnever =>
    have hpsleeping : p.sleeping = [] := by
      rw [h.sleeping, hslept hfresh, hsleeping]
      rfl
    rw [hnever, next_of_nothing h.free (h.fresh_eq_nil hfresh) hpsleeping]
    rfl

/-- Loops left behind move until the same comes next in both. -/
theorem catchUp (w : Workload σ) (deadline : Option Nat)
    (hgo : ∀ old slept p, Renews base late old slept p q → holds p = false)
    (h : Renews base late old slept p q) (ho : q.Orderly) :
    ∃ (p' : Playback σ) (slept' : List Sleeper) (k : Nat), Renews base late [] slept' p' q ∧
      p'.next = q.next.later base late ∧ (q.fresh = [] → slept' = []) ∧
      k + slept'.length = old.length + slept.length ∧
      ∀ n r, Settles w holds deadline n p' r → Settles w holds deadline (n + k) p r := by
  obtain ⟨p₁, h₁, hsettles₁⟩ := catchUp_old w deadline hgo old p h
  by_cases hfresh : q.fresh = []
  · obtain ⟨p₂, h₂, hsettles₂⟩ := catchUp_slept w deadline hfresh hgo slept p₁ h₁
    refine ⟨p₂, [], slept.length + old.length, h₂, h₂.next_eq ho fun _ => rfl, fun _ => rfl, ?_, ?_⟩
    · rw [List.length_nil]
      omega
    · intro n r hs
      rw [← Nat.add_assoc]
      exact hsettles₁ _ r (hsettles₂ n r hs)
  · have hslept : q.fresh = [] → slept = [] := fun hnil => absurd hnil hfresh
    exact ⟨p₁, slept, old.length, h₁, h₁.next_eq ho hslept, hslept, rfl, hsettles₁⟩

/-- A move that is made in both. -/
theorem move (hw : w.Instant) (h : Renews base late [] slept p q) (ho : q.Orderly)
    (hslept : q.fresh = [] → slept = []) {m : Move} (hnext : q.next = .now m) :
    Renews base late [] slept (p.move w (m.later base late)) (q.move w m) := by
  cases ho.coming with
  | begins run waiting hfresh hnow =>
    obtain rfl : Move.begin run = m := Next.now.inj (hnow.symm.trans hnext)
    exact h.begin hw ho hfresh
  | wakes s hfresh hfind hnow =>
    obtain rfl : Move.wake s = m := Next.now.inj (hnow.symm.trans hnext)
    obtain rfl := hslept hfresh
    exact h.wake hw ho (List.mem_of_find?_eq_some hfind)
  | waits s hfresh hsleeping hlive halarm hat => exact nomatch hat.symm.trans hnext
  | rests hfresh hsleeping hnever => exact nomatch hnever.symm.trans hnext

/-- Where nothing comes before a deadline, both clocks go on to it. -/
theorem waited (h : Renews base late old slept p q) (deadline : Option Nat) :
    Renews base late old slept ((deadline.map (· + late)).elim p p.elapseTo)
      (deadline.elim q q.elapseTo) := by
  cases deadline with
  | none => exact h
  | some time => exact h.elapseTo time

/-- Left to itself the playback that starts over comes to rest as the new one does. The induction is on
the moves of the new one. -/
theorem settles (hw : w.Instant)
    (hsame : ∀ old slept p q, Renews base late old slept p q → q.Orderly → holds' p = holds q)
    (hq : Settles w holds deadline n q q') :
    ∀ (old : List Nat) (slept : List Sleeper) (p : Playback σ), Renews base late old slept p q →
      q.Orderly → ∃ (p' : Playback σ) (old' : List Nat) (slept' : List Sleeper),
        Settles w holds' (deadline.map (· + late)) (n + (old.length + slept.length)) p p' ∧
        Renews base late old' slept' p' q' ∧ q'.Orderly := by
  have hearlier : ∀ time, (deadline.map (· + late)).all (time + late < ·)
      = deadline.all (time < ·) := by
    intro time
    cases deadline <;> simp
  have hcount : ∀ {n a b k : Nat}, k + b = a → n + 1 + a
      = n + (([] : List Nat).length + b) + 1 + k := by
    intro n a b k hk
    rw [List.length_nil]
    omega
  induction hq with
  | met hmet =>
    intro old slept p h ho
    exact ⟨p, old, slept, .met ((hsame _ _ _ _ h ho).trans hmet), h, ho⟩
  | late time hgo hnext hlate =>
    intro old slept p h ho
    have hgo' := fun old slept p h => (hsame old slept p _ h ho).trans hgo
    obtain ⟨p', slept', k, h', hnext', -, hk, hsettles⟩ :=
      catchUp w (deadline.map (· + late)) hgo' h ho
    rw [hnext] at hnext'
    refine ⟨_, [], slept', ?_, h'.waited deadline, ho.waited deadline⟩
    rw [← hk, Nat.add_comm k, ← Nat.add_assoc]
    exact hsettles _ _ (.late _ (hgo' _ _ _ h') hnext' ((hearlier time).trans hlate))
  | rests hgo hnext =>
    intro old slept p h ho
    have hgo' := fun old slept p h => (hsame old slept p _ h ho).trans hgo
    obtain ⟨p', slept', k, h', hnext', -, hk, hsettles⟩ :=
      catchUp w (deadline.map (· + late)) hgo' h ho
    rw [hnext] at hnext'
    refine ⟨_, [], slept', ?_, h'.waited deadline, ho.waited deadline⟩
    rw [← hk, Nat.add_comm k, ← Nat.add_assoc]
    exact hsettles _ _ (.rests (hgo' _ _ _ h') hnext')
  | moves m hgo hnext _ ih =>
    intro old slept p h ho
    have hgo' := fun old slept p h => (hsame old slept p _ h ho).trans hgo
    obtain ⟨p', slept', k, h', hnext', hslept, hk, hsettles⟩ :=
      catchUp w (deadline.map (· + late)) hgo' h ho
    rw [hnext] at hnext'
    obtain ⟨r, old'', slept'', hr, h'', ho''⟩ := ih [] slept' _ (h'.move hw ho hslept hnext)
      (ho.exists_turn hw hnext 0).1
    refine ⟨r, old'', slept'', ?_, h'', ho''⟩
    rw [hcount hk]
    exact hsettles _ _ (.moves _ (hgo' _ _ _ h') hnext' hr)
  | passes time hgo hnext hearly _ ih =>
    intro old slept p h ho
    have hgo' := fun old slept p h => (hsame old slept p _ h ho).trans hgo
    obtain ⟨p', slept', k, h', hnext', hslept, hk, hsettles⟩ :=
      catchUp w (deadline.map (· + late)) hgo' h ho
    rw [hnext] at hnext'
    obtain ⟨r, old'', slept'', hr, h'', ho''⟩ := ih [] slept' _ (h'.elapseTo time) (ho.elapseTo time)
    refine ⟨r, old'', slept'', ?_, h'', ho''⟩
    rw [hcount hk]
    exact hsettles _ _ (.passes _ (hgo' _ _ _ h') hnext' ((hearlier time).trans hearly) hr)

/-! ## Time that passes -/

theorem elapse (hw : w.Instant) (h : Renews base late old slept p q) (ho : q.Orderly)
    {ms fuel fuel' : Nat} (hfuel' : q.burden 1 + 2 * ms < fuel')
    (hfuel : q.burden 1 + 2 * ms + (old.length + slept.length) < fuel) :
    ∃ old' slept', Renews base late old' slept' (p.elapse w fuel ms) (q.elapse w fuel' ms) ∧
      (q.elapse w fuel' ms).Orderly := by
  obtain ⟨q', hq⟩ := ho.exists_settles_by hw (fun _ => false) (q.clock + ms)
  rw [Nat.add_sub_cancel_left] at hq
  have hnever : ∀ old slept (p q : Playback σ), Renews base late old slept p q → q.Orderly →
      (fun _ : Playback σ => false) p = (fun _ : Playback σ => false) q := fun _ _ _ _ _ _ => rfl
  obtain ⟨p', old', slept', hp, h', ho'⟩ := settles hw hnever hq old slept p h ho
  have hdeadline : some (p.clock + ms) = (some (q.clock + ms)).map (· + late) := by
    rw [h.clock, Option.map_some]
    congr 1
    omega
  unfold Playback.elapse
  rw [hdeadline, hq.advance_eq hfuel', hp.advance_eq hfuel]
  exact ⟨old', slept', h', ho'⟩

/-! ## Waiting -/

/-- Where there are no other loops, those left behind are soon gone. -/
theorem settles_left (hfresh : q.fresh = []) (hsleeping : q.sleeping = []) (run : Nat)
    (deadline : Option Nat) :
    ∀ (old : List Nat) (slept : List Sleeper) (p : Playback σ), Renews base late old slept p q →
      ∃ (p' : Playback σ) (old' : List Nat) (slept' : List Sleeper),
        Settles w (fun p => !p.hasLoop run) deadline (old.length + slept.length) p p' ∧
        Renews base late old' slept' p' q ∧ p'.hasLoop run = false
  | old, slept, p, h => by
    cases hloop : p.hasLoop run with
    | false => exact ⟨p, old, slept, .met (by rw [hloop]; rfl), h, hloop⟩
    | true =>
      have hgo : (!p.hasLoop run) = false := by
        rw [hloop]
        rfl
      match old, slept with
      | other :: old, slept =>
        obtain ⟨hnext, hstep⟩ := h.begin_old (w := w)
        obtain ⟨p', old', slept', hs, h', hended⟩ := settles_left hfresh hsleeping run deadline old
          slept _ hstep
        refine ⟨p', old', slept', ?_, h', hended⟩
        rw [List.length_cons, Nat.add_right_comm]
        exact .moves (.begin other) hgo hnext hs
      | [], s :: slept =>
        obtain ⟨hnext, hstep⟩ := h.wake_slept (w := w) hfresh
        obtain ⟨p', old', slept', hs, h', hended⟩ := settles_left hfresh hsleeping run deadline []
          slept _ hstep
        exact ⟨p', old', slept', .moves (.wake s) hgo hnext hs, h', hended⟩
      | [], [] =>
        -- with no loop at all the run has none
        have hpfresh : p.fresh = [] := by
          rw [h.fresh, hfresh]
          rfl
        have hpsleeping : p.sleeping = [] := by
          rw [h.sleeping, hsleeping]
          rfl
        exact absurd hloop (by rw [p.hasLoop_of_nil run h.free hpfresh hpsleeping]; decide)

/-- Whoever waits for the latest loop waits alike in both, provided that the new playback comes to rest
within the moves that both may make. -/
theorem await (hw : w.Instant) (h : Renews base late old slept p q) (ho : q.Orderly)
    {limitMs : Option Nat} {fuel fuel' : Nat} (hfuel' : n < fuel')
    (hfuel : n + (old.length + slept.length) < fuel)
    (hrest : ∀ run, q.awaitable = some run → ∃ q', Settles w (fun q => !q.hasLoop run)
      (limitMs.map (q.clock + ·)) n { q with awaitable := none } q') :
    (p.await w fuel limitMs).2 = (q.await w fuel' limitMs).2 ∧
    ∃ old' slept', Renews base late old' slept' (p.await w fuel limitMs).1
      (q.await w fuel' limitMs).1 ∧ (q.await w fuel' limitMs).1.Orderly := by
  have hdeadline : limitMs.map (p.clock + ·) = (limitMs.map (q.clock + ·)).map (· + late) := by
    cases limitMs with
    | none => rfl
    | some ms =>
      rw [h.clock, Option.map_some, Option.map_some, Option.map_some]
      congr 1
      omega
  unfold Playback.await
  rcases h.awaitable with ⟨run, hqrun, hprun⟩ | ⟨hqnone, hpnone | hunplayed⟩
  · -- both wait for the same loop
    obtain ⟨-, hpos⟩ := ho.awaited run hqrun
    have hunawaited : Renews base late old slept { p with awaitable := none }
        { q with awaitable := none } := { h with awaitable := Or.inr ⟨rfl, Or.inl rfl⟩ }
    have hended : ∀ old slept (p q : Playback σ), Renews base late old slept p q → q.Orderly →
        (fun p : Playback σ => !p.hasLoop (run + base)) p = (fun q : Playback σ => !q.hasLoop run) q :=
      fun _ _ _ _ h ho => congrArg Bool.not (h.hasLoop ho hpos)
    obtain ⟨q', hq⟩ := hrest run hqrun
    obtain ⟨p', old', slept', hp, h', ho'⟩ :=
      settles hw hended hq old slept _ hunawaited { ho with awaited := nofun }
    rw [hqrun, hprun]
    simp only
    rw [hdeadline, hq.advance_eq hfuel', hp.advance_eq hfuel]
    exact ⟨congrArg Bool.not (h'.hasLoop ho' hpos), old', slept', h', ho'⟩
  · -- there is nothing to wait for
    rw [hqnone, hpnone]
    exact ⟨rfl, old, slept, h, ho⟩
  · -- only a loop left behind can be waited for, and it ends at once
    have hnone : ∀ run, run ∉ q.loops := by
      intro run hrun
      have hstarted := ho.started run hrun
      have hnumbered := ho.numbered run hrun
      omega
    obtain ⟨hfresh, hslept⟩ := List.append_eq_nil_iff.mp (List.eq_nil_iff_forall_not_mem.mpr hnone)
    rw [hqnone]
    cases hprun : p.awaitable with
    | none => exact ⟨rfl, old, slept, h, ho⟩
    | some run =>
      have hunawaited : Renews base late old slept { p with awaitable := none } q :=
        { h with awaitable := Or.inr ⟨hqnone, Or.inl rfl⟩ }
      obtain ⟨p', old', slept', hp, h', hended⟩ := settles_left (w := w) hfresh
        (List.map_eq_nil_iff.mp hslept) run (limitMs.map (p.clock + ·)) old slept _ hunawaited
      simp only
      rw [hp.advance_eq (Nat.lt_of_le_of_lt (Nat.le_add_left _ n) hfuel), hended]
      exact ⟨rfl, old', slept', h', ho⟩

/-- A loop that is held up in the new playback is held up in the one that starts over. -/
theorem heldUp_of (h : Renews base late old slept p q) {run : Nat} (hpos : 0 < run)
    (hq : q.HeldUp run) : p.HeldUp (run + base) := by
  obtain ⟨s, hs, hsrun⟩ := hq.asleep
  have hheld : p.status.isHeld = q.status.isHeld := h.status.congr _ fun _ => rfl
  refine ⟨h.free, hheld.trans hq.held, (h.isLive hpos).trans hq.live, s.later base late, ?_, ?_⟩
  · rw [h.sleeping]
    exact List.mem_append_right _ (List.mem_map_of_mem hs)
  · exact congrArg (· + base) hsrun

end Renews

/-- Nobody who waits for a loop that is held up sees it end. -/
theorem HeldUp.await {run : Nat} (h : p.HeldUp run) (hrun : p.awaitable = some run) (fuel : Nat) :
    (p.await w fuel none).2 = false := by
  have hheld : ({ p with awaitable := none } : Playback σ).HeldUp run :=
    ⟨h.free, h.held, h.live, h.asleep⟩
  unfold Playback.await
  rw [hrun]
  exact congrArg Bool.not (hheld.advance fuel)

/-- The loop that can be waited for is held up, or no loop is. -/
theorem Orderly.unheld_or_heldUp (ho : q.Orderly) {run : Nat} (hrun : q.awaitable = some run) :
    q.Unheld ∨ q.HeldUp run := by
  by_cases hheld : ∃ s ∈ q.sleeping, q.status.isHeld = true ∧ q.isLive s.run = true
  · obtain ⟨s, hs, hheld, hlive⟩ := hheld
    have hsrun : s.run = run := (isLive_iff.mp hlive).1.trans (ho.awaited run hrun).1.symm
    exact Or.inr ⟨ho.free, hheld, hsrun ▸ hlive, s, hs, hsrun⟩
  · refine Or.inl fun hh s hs => ?_
    rw [← Bool.not_eq_true]
    exact fun hlive => hheld ⟨s, hs, hh, hlive⟩

end Playback

end Retrace
