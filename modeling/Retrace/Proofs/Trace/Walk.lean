import Retrace.Proofs.Trace.Stops
/-!
# A player goes from stop to stop

A player in the middle of a run stands on the entry whose index is the number of small steps it took,
so it is given by its limits, its trace and that index (`standing`). One small step from there fails as
`Trace.failure?` says, ends the run on the last entry, or goes on to the next entry (`microStep_*`).
A walk repeats this, and comes to one of three ends (`Outcome`):

* it stops, on another line or with its small steps used up;
* it fails, in the failure of the first small step that has one;
* it comes to the end of the trace.

`stepToNextLine_standing` reads the first of them as the trace's next stop, reached without a failure,
and the other two as there being no such stop.
-/

namespace Retrace

namespace Player

/-- A player that has played up to an entry and can go on. -/
def standing (limits : PlayerLimits) (t : Trace) (i : Nat) : Player :=
  ⟨limits, some t, i, i, true, none⟩

section Standing

variable {limits : PlayerLimits} {t : Trace} {i : Nat}

theorem currentLine?_standing : (standing limits t i).currentLine? = t.line? i := rfl

/-- Where a small step from entry `q` that fails leaves the player: an error is raised by the entry
reached, a limit on the entry left. -/
def failedAt (q : Nat) : RunFailure → Nat
  | .runtime _ => q + 1
  | _ => q

theorem microStep_standing :
    (standing limits t i).microStep
      = if limits.maxSteps ≤ i then (standing limits t i).fail (.stepLimit limits.maxSteps)
        else if limits.maxStackSize < t.entries[i]?.elim 0 (·.frames.length) then
          (standing limits t i).fail (.stackLimit limits.maxStackSize)
        else if t.entries.size ≤ i + 1 then ({ standing limits t i with running := false }, .ok false)
        else
          match t.entries[i + 1]?.bind Entry.error with
          | some message => (standing limits t (i + 1)).fail (.runtime message)
          | none => (standing limits t (i + 1), .ok true) := rfl

theorem microStep_of_failure {e : RunFailure} (h : t.failure? limits i = some e) :
    (standing limits t i).microStep
      = ({ standing limits t (failedAt i e) with failure := some e }, .error e) := by
  unfold Trace.failure? at h
  rw [microStep_standing]
  -- the small step makes its tests in the order in which `failure?` does
  by_cases hsteps : limits.maxSteps ≤ i
  · rw [if_pos hsteps] at h ⊢
    injection h with h
    rw [← h]
    rfl
  · rw [if_neg hsteps] at h ⊢
    by_cases hstack : limits.maxStackSize < t.entries[i]?.elim 0 (·.frames.length)
    · rw [if_pos hstack] at h ⊢
      injection h with h
      rw [← h]
      rfl
    · rw [if_neg hstack] at h ⊢
      obtain ⟨message, hm, rfl⟩ := Option.map_eq_some_iff.mp h
      -- the entry that carries the error is there
      obtain ⟨entry, hentry, -⟩ := Option.bind_eq_some_iff.mp hm
      have hlt : i + 1 < t.entries.size := (Array.getElem?_eq_some_iff.mp hentry).choose
      rw [if_neg (by omega), hm]
      rfl

theorem limits_of_no_failure (h : t.failure? limits i = none) :
    ¬limits.maxSteps ≤ i ∧ ¬limits.maxStackSize < t.entries[i]?.elim 0 (·.frames.length)
      ∧ t.entries[i + 1]?.bind Entry.error = none := by
  unfold Trace.failure? at h
  by_cases hsteps : limits.maxSteps ≤ i
  · rw [if_pos hsteps] at h
    cases h
  · rw [if_neg hsteps] at h
    by_cases hstack : limits.maxStackSize < t.entries[i]?.elim 0 (·.frames.length)
    · rw [if_pos hstack] at h
      cases h
    · rw [if_neg hstack] at h
      exact ⟨hsteps, hstack, Option.map_eq_none_iff.mp h⟩

/-- The small step that leaves the last entry ends the run there. -/
theorem microStep_of_last (h : t.failure? limits i = none) (hend : t.entries.size ≤ i + 1) :
    (standing limits t i).microStep = ({ standing limits t i with running := false }, .ok false) := by
  obtain ⟨hsteps, hstack, -⟩ := limits_of_no_failure h
  rw [microStep_standing, if_neg hsteps, if_neg hstack, if_pos hend]

/-- Any other small step without a failure goes on to the next entry. -/
theorem microStep_of_next (h : t.failure? limits i = none) (hlt : i + 1 < t.entries.size) :
    (standing limits t i).microStep = (standing limits t (i + 1), .ok true) := by
  obtain ⟨hsteps, hstack, herror⟩ := limits_of_no_failure h
  rw [microStep_standing, if_neg hsteps, if_neg hstack, if_neg (by omega), herror]

end Standing

/-- From entry `i` no small step before entry `q` fails, and no entry in between is on a line other
than `start`. -/
structure Clear (limits : PlayerLimits) (t : Trace) (start : Option Nat) (i q : Nat) : Prop where
  no_failure : ∀ j, i ≤ j → j < q → t.failure? limits j = none
  same_line : ∀ j, i < j → j < q → Trace.opensRun start (t.line? j) = false

theorem clear_self (limits : PlayerLimits) (t : Trace) (start : Option Nat) (i : Nat) :
    Clear limits t start i i where
  no_failure j hij hji := absurd hji (by omega)
  same_line j hij hji := absurd hji (by omega)

theorem clear_one {limits : PlayerLimits} {t : Trace} (start : Option Nat) {i : Nat}
    (h : t.failure? limits i = none) : Clear limits t start i (i + 1) where
  no_failure j hij hji := by
    have hj : j = i := by omega
    rw [hj]
    exact h
  same_line j hij hji := absurd hji (by omega)

/-- A small step without a failure to an entry that does not end the walk may be put in front. -/
theorem Clear.step {limits : PlayerLimits} {t : Trace} {start : Option Nat} {i q : Nat}
    (h : Clear limits t start (i + 1) q) (hi : t.failure? limits i = none)
    (hline : Trace.opensRun start (t.line? (i + 1)) = false) : Clear limits t start i q where
  no_failure j hij hjq := by
    rcases Nat.lt_or_eq_of_le hij with hlt | rfl
    · exact h.no_failure j hlt hjq
    · exact hi
  same_line j hij hjq := by
    rcases Nat.lt_or_eq_of_le hij with hlt | rfl
    · exact h.same_line j hlt hjq
    · exact hline

/-- The three ends of a walk of at most `remaining` small steps from entry `i`. -/
inductive Outcome (limits : PlayerLimits) (t : Trace) (start : Option Nat)
    (remaining spent i : Nat) : Player × Except RunFailure LineStep → Prop where
  /-- It stops at entry `q`. -/
  | stopped (q : Nat) (hclear : Clear limits t start i q) (hlt : q < t.entries.size) (hle : i ≤ q)
      (hceiling : q ≤ i + remaining)
      (hstop : q = i + remaining ∨ (i < q ∧ Trace.opensRun start (t.line? q) = true)) :
      Outcome limits t start remaining spent i
        (standing limits t q, .ok ⟨true, 0 < spent + (q - i), t.line? q, spent + (q - i)⟩)
  /-- The small step that leaves entry `q` fails. -/
  | failed (q : Nat) (e : RunFailure) (hclear : Clear limits t start i q)
      (hsame : i < q → Trace.opensRun start (t.line? q) = false) (hlt : q < t.entries.size)
      (hle : i ≤ q) (hceiling : q < i + remaining)
      (hfailure : t.failure? limits q = some e) :
      Outcome limits t start remaining spent i
        ({ standing limits t (failedAt q e) with failure := some e }, .error e)
  /-- The small step that leaves the last entry ends the run. -/
  | ended (hclear : Clear limits t start i t.entries.size)
      (hceiling : t.entries.size ≤ i + remaining) :
      Outcome limits t start remaining spent i
        ({ standing limits t (t.entries.size - 1) with running := false },
          .ok ⟨false, true, none, spent + (t.entries.size - i)⟩)

/-- A walk goes on over a small step without a failure, unless that comes to another line. -/
theorem walk_of_next {limits : PlayerLimits} {t : Trace} {i : Nat} (start : Option Nat)
    (remaining spent : Nat) (h : t.failure? limits i = none) (hlt : i + 1 < t.entries.size) :
    walk start (remaining + 1) spent (standing limits t i)
      = if Trace.opensRun start (t.line? (i + 1)) = true then
          (standing limits t (i + 1), .ok ⟨true, true, t.line? (i + 1), spent + 1⟩)
        else walk start remaining (spent + 1) (standing limits t (i + 1)) := by
  simp only [walk, microStep_of_next h hlt]
  rfl

/-- A walk comes to one of the three ends. The induction is on the small steps that remain. -/
theorem walk_standing (limits : PlayerLimits) (t : Trace) (start : Option Nat) :
    ∀ (remaining spent : Nat) {i : Nat}, i < t.entries.size →
      Outcome limits t start remaining spent i (walk start remaining spent (standing limits t i))
  | 0, spent, i, hi => by
    have h : Outcome limits t start 0 spent i _ :=
      .stopped i (clear_self limits t start i) hi (Nat.le_refl i) (Nat.le_refl i) (Or.inl rfl)
    rw [Nat.sub_self] at h
    exact h
  | remaining + 1, spent, i, hi => by
    cases hfail : t.failure? limits i with
    | some e =>
      simp only [walk, microStep_of_failure hfail]
      exact .failed i e (clear_self limits t start i) (fun h => absurd h (Nat.lt_irrefl i)) hi
        (Nat.le_refl i) (by omega) hfail
    | none =>
      by_cases hend : t.entries.size ≤ i + 1
      · -- `i` is the last entry
        have hlast : t.entries.size = i + 1 := by omega
        simp only [walk, microStep_of_last hfail hend]
        have hclear : Clear limits t start i t.entries.size := by
          rw [hlast]
          exact clear_one start hfail
        have h : Outcome limits t start (remaining + 1) spent i _ := .ended hclear (by omega)
        have hone : t.entries.size - i = 1 := by omega
        have hpos : t.entries.size - 1 = i := by omega
        rw [hone, hpos] at h
        exact h
      · have hlt : i + 1 < t.entries.size := by omega
        rw [walk_of_next start remaining spent hfail hlt]
        by_cases hopens : Trace.opensRun start (t.line? (i + 1)) = true
        · -- the entry ahead is on another line
          rw [if_pos hopens]
          have h : Outcome limits t start (remaining + 1) spent i _ :=
            .stopped (i + 1) (clear_one start hfail) hlt (by omega) (by omega) (Or.inr ⟨by omega, hopens⟩)
          have hone : i + 1 - i = 1 := by omega
          rw [hone] at h
          simpa using h
        · -- the walk goes on, and its end is that of the walk from the entry ahead
          rw [if_neg hopens]
          have hsame : Trace.opensRun start (t.line? (i + 1)) = false := by simpa using hopens
          have hrest := walk_standing limits t start remaining (spent + 1) hlt
          generalize walk start remaining (spent + 1) (standing limits t (i + 1)) = result at hrest ⊢
          cases hrest with
          | stopped q hclear hq hle hceiling hstop =>
            have h : Outcome limits t start (remaining + 1) spent i _ :=
              .stopped q (hclear.step hfail hsame) hq (by omega) (by omega)
                (hstop.imp (fun h => by omega) fun h => ⟨by omega, h.2⟩)
            have hspent : spent + (q - i) = spent + 1 + (q - (i + 1)) := by omega
            rw [hspent] at h
            exact h
          | failed q e hclear hlast hq hle hceiling hfailure =>
            refine .failed q e (hclear.step hfail hsame) ?_ hq (by omega) (by omega)
              hfailure
            intro hiq
            rcases Nat.lt_or_eq_of_le hle with hlt | he
            · exact hlast hlt
            · rw [← he]
              exact hsame
          | ended hclear hceiling =>
            have h : Outcome limits t start (remaining + 1) spent i _ :=
              .ended (hclear.step hfail hsame) (by omega)
            have hspent : spent + (t.entries.size - i) = spent + 1 + (t.entries.size - (i + 1)) := by
              omega
            rw [hspent] at h
            exact h

/-- What came of going on to the next line, told by the stops of the trace: the next stop, reached
without a failure; or nothing more that could be reached, because the run failed or came to its end. -/
inductive LineOutcome (limits : PlayerLimits) (t : Trace) (ceiling i : Nat) :
    Player × Except RunFailure LineStep → Prop where
  | stopped (q : Nat) (line : LineStep) (hstop : t.nextStop? ceiling i = some q)
      (hclear : ∀ j, i ≤ j → j < q → t.failure? limits j = none) (hmore : line.hasMore = true) :
      LineOutcome limits t ceiling i (standing limits t q, .ok line)
  | failed (q : Nat) (e : RunFailure) (hle : i ≤ q) (hlt : q < t.entries.size)
      (hfailure : t.failure? limits q = some e)
      (hstop : ∀ r, t.nextStop? ceiling i = some r → q < r) :
      LineOutcome limits t ceiling i
        ({ standing limits t (failedAt q e) with failure := some e }, .error e)
  | ended (line : LineStep) (hstop : t.nextStop? ceiling i = none) (hmore : line.hasMore = false) :
      LineOutcome limits t ceiling i
        ({ standing limits t (t.entries.size - 1) with running := false }, .ok line)

/-- Going on to the next line is a walk that has spent nothing yet. -/
theorem outcome_stepToNextLine (limits : PlayerLimits) (t : Trace) {ceiling i : Nat}
    (hi : i < t.entries.size) :
    Outcome limits t (t.line? i) ceiling 0 i ((standing limits t i).stepToNextLine ceiling) := by
  have hloaded : ((standing limits t i).trace.isNone || (standing limits t i).isDone) = false := rfl
  unfold stepToNextLine
  rw [hloaded, if_neg Bool.false_ne_true, currentLine?_standing]
  exact walk_standing limits t (t.line? i) ceiling 0 hi

/-- Going on to the next line reaches the next stop, or fails before it, or there is none. -/
theorem stepToNextLine_standing (limits : PlayerLimits) (t : Trace) {ceiling i : Nat}
    (hi : i < t.entries.size) :
    LineOutcome limits t ceiling i ((standing limits t i).stepToNextLine ceiling) := by
  have hwalk : Outcome limits t (t.line? i) ceiling 0 i _ := outcome_stepToNextLine limits t hi
  generalize (standing limits t i).stepToNextLine ceiling = result at hwalk ⊢
  cases hwalk with
  | stopped q hclear hlt hle hceiling hstop =>
    refine .stopped q _ ?_ hclear.no_failure rfl
    exact Trace.nextStop?_eq_some_iff.mpr ⟨hlt, hceiling, hclear.same_line, hstop⟩
  | failed q e hclear hsame hlt hle hceiling hfailure =>
    refine .failed q e hle hlt hfailure ?_
    intro r hr
    -- no entry up to `q` can be the stop: none is on another line, and the ceiling is further
    obtain ⟨-, -, -, hstop⟩ := Trace.nextStop?_eq_some_iff.mp hr
    rcases hstop with hr | ⟨hir, hother⟩
    · omega
    · rcases Nat.lt_or_ge q r with hqr | hrq
      · exact hqr
      · have hnot : t.onOtherLine i r = false := by
          rcases Nat.lt_or_eq_of_le hrq with hrq | rfl
          · exact hclear.same_line r hir hrq
          · exact hsame hir
        rw [hnot] at hother
        cases hother
  | ended hclear hceiling =>
    exact .ended _ (Trace.nextStop?_eq_none hceiling hclear.same_line) rfl

end Player

end Retrace
