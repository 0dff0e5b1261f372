import Retrace.Proofs.Trace.Ending
/-!
# One step to the next line

`stepToNextLine` said from outside, for every player that its users can come to (`Reachable`), every
entry it may stand on and every ceiling. Such a player is done or stands on an entry of its trace
(`Reachable.done_or_standing`). From there a call that leaves more to play went as far as its small
steps say, and stopped at the first entry on another line or at its ceiling (`StopsAt`); a call that
leaves nothing to play passed every entry ahead and spent one small step more than it went on
(`PlaysOut`).
-/

namespace Retrace

namespace Player

/-- The players that a fresh one becomes when documents are loaded into it, accepted or not, when it
goes on to the next line with any ceilings, and when it is reset, in any order. -/
inductive Reachable : Player → Prop where
  | idle (limits : PlayerLimits) : Reachable (idle limits)
  | load {p : Player} (h : Reachable p) (source : String) : Reachable (p.load source).1
  | line {p : Player} (h : Reachable p) (ceiling : Nat) : Reachable (p.stepToNextLine ceiling).1
  | reset {p : Player} (h : Reachable p) : Reachable p.reset

/-- The call has stopped `line.microSteps` entries after entry `i`, with more to play. -/
structure StopsAt (t : Trace) (ceiling i : Nat) (p : Player) (line : LineStep) : Prop where
  position : p.position = i + line.microSteps
  lt_size : p.position < t.entries.size
  /-- No entry passed on the way has a line of its own. -/
  passed : ∀ j, i < j → j < p.position → t.line? j = none ∨ t.line? j = t.line? i
  newLine : line.newLine = t.line? p.position
  /-- The entry reached has another line than entry `i`, or the small steps are used up. -/
  reason : (∃ l, line.newLine = some l ∧ t.line? i ≠ some l) ∨ line.microSteps = ceiling

/-- The call has played from entry `i` over the end of the trace. -/
structure PlaysOut (t : Trace) (i : Nat) (p : Player) (line : LineStep) : Prop where
  last : p.position + 1 = t.entries.size
  /-- One small step was spent on leaving the last entry. -/
  microSteps : p.position + 1 = i + line.microSteps
  /-- No entry after entry `i` has a line of its own. -/
  passed : ∀ j, i < j → j < t.entries.size → t.line? j = none ∨ t.line? j = t.line? i
  done : p.isDone = true
  no_state : p.probe.position = none

/-- A call from entry `i` went on to a later entry, played out or failed. -/
def Advances (i : Nat) : Player × Except RunFailure LineStep → Prop
  | (p, .ok line) => if line.hasMore then i < p.position else p.isDone = true
  | (p, .error e) => p.failure = some e

section Standing

variable {limits : PlayerLimits} {t : Trace} {ceiling i : Nat} {p : Player} {line : LineStep}

/-- After a call the player is done or stands on an entry. -/
theorem standing_of_outcome {start : Option Nat} {remaining spent : Nat}
    {result : Player × Except RunFailure LineStep}
    (h : Outcome limits t start remaining spent i result) :
    result.1.isDone = true ∨ ∃ q, result.1 = standing limits t q ∧ q < t.entries.size := by
  cases h with
  | stopped q hclear hlt hle hceiling hstop => exact Or.inr ⟨q, rfl, hlt⟩
  | failed => exact Or.inl rfl
  | ended => exact Or.inl rfl

/-- A player is done or stands on an entry of its trace. The induction is on how it came about. -/
theorem Reachable.done_or_standing (h : Reachable p) :
    p.isDone = true ∨ ∃ t i, p = standing p.limits t i ∧ i < t.entries.size := by
  induction h with
  | idle limits => exact Or.inl rfl
  | @load p h source ih =>
    cases hread : Trace.read source with
    | error e =>
      left
      unfold Player.load
      rw [hread]
      rfl
    | ok t =>
      rw [load_of_read hread]
      exact Or.inr ⟨t, 0, rfl, Trace.size_pos_of_read hread⟩
  | @line p h ceiling ih =>
    rcases ih with hdone | ⟨t, i, hp, hi⟩
    · rw [stepToNextLine_of_isDone hdone]
      exact Or.inl hdone
    · have houtcome : Outcome p.limits t (t.line? i) ceiling 0 i _ :=
        outcome_stepToNextLine p.limits t hi
      rw [← hp] at houtcome
      rcases standing_of_outcome houtcome with hdone | ⟨q, hq, hlt⟩
      · exact Or.inl hdone
      · refine Or.inr ⟨t, q, ?_, hlt⟩
        rw [hq]
        rfl
  | reset h ih => exact Or.inl rfl

/-- The small steps of an accepted call are within the ceiling, and it stopped or played out. -/
theorem accepted_standing (hi : i < t.entries.size)
    (h : (standing limits t i).stepToNextLine ceiling = (p, .ok line)) :
    line.microSteps ≤ ceiling
    ∧ (line.hasMore = true → StopsAt t ceiling i p line)
    ∧ (line.hasMore = false → PlaysOut t i p line) := by
  have houtcome : Outcome limits t (t.line? i) ceiling 0 i _ := outcome_stepToNextLine limits t hi
  rw [h] at houtcome
  cases houtcome with
  | stopped q hclear hlt hle hceiling hstop =>
    have hspent : 0 + (q - i) ≤ ceiling := by omega
    have hposition : q = i + (0 + (q - i)) := by omega
    refine ⟨hspent, ?_, ?_⟩
    · intro _
      refine ⟨hposition, hlt, ?_, rfl, ?_⟩
      · intro j hij hjq
        exact Trace.opensRun_eq_false_iff.mp (hclear.same_line j hij hjq)
      · rcases hstop with hused | ⟨-, hother⟩
        · right
          show 0 + (q - i) = ceiling
          omega
        · exact Or.inl (Trace.opensRun_eq_true_iff.mp hother)
    · intro hmore
      cases hmore
  | ended hclear hceiling =>
    have hspent : 0 + (t.entries.size - i) ≤ ceiling := by omega
    have hlast : t.entries.size - 1 + 1 = t.entries.size := by omega
    have hcount : t.entries.size - 1 + 1 = i + (0 + (t.entries.size - i)) := by omega
    refine ⟨hspent, ?_, ?_⟩
    · intro hmore
      cases hmore
    · intro _
      refine ⟨hlast, hcount, ?_, rfl, rfl⟩
      intro j hij hj
      exact Trace.opensRun_eq_false_iff.mp (hclear.same_line j hij hj)

/-- With a small step to spend a call goes on, plays out or fails. -/
theorem advances_standing (hi : i < t.entries.size) (hc : 0 < ceiling) :
    Advances i ((standing limits t i).stepToNextLine ceiling) := by
  have houtcome : Outcome limits t (t.line? i) ceiling 0 i _ := outcome_stepToNextLine limits t hi
  generalize (standing limits t i).stepToNextLine ceiling = result at houtcome ⊢
  cases houtcome with
  | stopped q hclear hlt hle hceiling hstop =>
    show i < q
    rcases hstop with hused | ⟨hiq, -⟩
    · omega
    · exact hiq
  | failed q e => rfl
  | ended hclear hceiling => rfl

end Standing

/-- Take any player that its users can come to and that is not done. It has a trace loaded and stands
on one of its entries. Let it go on to the next line with any ceiling, zero included. If the call is
accepted, it spent no more small steps than the ceiling. If it leaves more to play, it went on by as
many entries as it spent small steps, over entries without a line or on the line it started from, to an
entry on another line, which it reports, or to where its small steps were used up. If it leaves nothing
to play, it stands on the last entry, spent one small step more than it went on, passed no entry on
another line, is done and shows no state. And with a ceiling other than zero a call always goes on to a
later entry, plays out or fails. -/
theorem Reachable.stepToNextLine_exact {p : Player} (h : Reachable p) (hgo : p.isDone = false) :
    ∃ t, p.trace = some t ∧ p.position < t.entries.size ∧ ∀ ceiling : Nat,
      (∀ p' line, p.stepToNextLine ceiling = (p', .ok line) →
        line.microSteps ≤ ceiling
        ∧ (line.hasMore = true → StopsAt t ceiling p.position p' line)
        ∧ (line.hasMore = false → PlaysOut t p.position p' line))
      ∧ (0 < ceiling → Advances p.position (p.stepToNextLine ceiling)) := by
  rcases h.done_or_standing with hdone | ⟨t, i, hp, hi⟩
  · rw [hdone] at hgo
    cases hgo
  · rw [hp]
    refine ⟨t, rfl, hi, fun ceiling => ⟨?_, ?_⟩⟩
    · intro p' line hcall
      exact accepted_standing hi hcall
    · intro hc
      exact advances_standing hi hc

/-- On the four entries a call with three small steps to spend stops on the third entry, on line two,
and one with a single small step stops on the second entry, still on line one. -/
theorem fourEntries_lineSteps :
    let p := ((idle ⟨9, 9⟩).load fourEntriesText).1
    p.isDone = false
    ∧ (∃ p' line, p.stepToNextLine 3 = (p', .ok line) ∧ line.newLine = some 2
        ∧ StopsAt fourEntries 3 0 p' line)
    ∧ ∃ p' line, p.stepToNextLine 1 = (p', .ok line) ∧ line.newLine = some 1
        ∧ StopsAt fourEntries 1 0 p' line := by
  intro p
  have hp : p = standing ⟨9, 9⟩ fourEntries 0 := congrArg Prod.fst (load_fourEntriesText ⟨9, 9⟩)
  have hgo : p.isDone = false := by
    rw [hp]
    rfl
  have hreachable : Reachable p := .load (.idle ⟨9, 9⟩) fourEntriesText
  obtain ⟨t, ht, -, hcalls⟩ := hreachable.stepToNextLine_exact hgo
  have hsame : t = fourEntries := by
    rw [hp] at ht
    injection ht with ht
    exact ht.symm
  subst hsame
  have hthree : p.stepToNextLine 3
      = (standing ⟨9, 9⟩ fourEntries 2, .ok ⟨true, true, some 2, 2⟩) := by
    rw [hp]
    rfl
  have hone : p.stepToNextLine 1
      = (standing ⟨9, 9⟩ fourEntries 1, .ok ⟨true, true, some 1, 1⟩) := by
    rw [hp]
    rfl
  have hposition : p.position = 0 := by
    rw [hp]
    rfl
  rw [hposition] at hcalls
  exact ⟨hgo, ⟨_, _, hthree, rfl, (((hcalls 3).1 _ _ hthree).2.1 rfl)⟩,
    ⟨_, _, hone, rfl, (((hcalls 1).1 _ _ hone).2.1 rfl)⟩⟩

end Player

end Retrace
