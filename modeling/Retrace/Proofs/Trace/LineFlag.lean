import Retrace.Proofs.Trace.LineStep
/-!
# What the flag of a call says

A call to `stepToNextLine` reports whether the line changed. For every player that its users can come
to (`Reachable`) and every ceiling this flag says that small steps were spent, and no more than that
(`lineChanged_iff_of_outcome`). Another line is reported exactly if the next line of the trace is
within the ceiling (`moved_iff_of_outcome`). So the flag is right when that is so, or when there are
no small steps to spend; a call that its ceiling cuts short on the line it started from, or that runs
over the end of the trace, reports a change that did not take place.
-/

namespace Retrace

/-- The report of a call reaches another line than the one it started from. -/
def LineStep.Moved (start : Option Nat) (line : LineStep) : Prop :=
  ∃ l, line.newLine = some l ∧ start ≠ some l

/-- The report claims a change of line only if there was one. -/
def LineStep.Truthful (start : Option Nat) (line : LineStep) : Prop :=
  line.lineChanged = true → line.Moved start

/-- The next line after entry `i` is at most `ceiling` entries ahead. -/
def Trace.LineWithin (t : Trace) (ceiling i : Nat) : Prop :=
  ∃ q, t.nextLine? i = some q ∧ q ≤ i + ceiling

/-- No entry is on another line than its own. -/
theorem Trace.onOtherLine_self (t : Trace) (i : Nat) : t.onOtherLine i i = false := by
  unfold onOtherLine
  rw [opensRun_eq_false_iff]
  exact Or.inr rfl

/-- With the same lines up to entry `q`, at the ceiling or on another line, the next line is within the
ceiling if and only if `q` is on it. -/
theorem Trace.IsStop.lineWithin_iff {t : Trace} {ceiling i q : Nat} (h : t.IsStop ceiling i q) :
    t.LineWithin ceiling i ↔ t.onOtherLine i q = true := by
  constructor
  · rintro ⟨r, hr, hle⟩
    obtain ⟨-, hir, hother, -⟩ := nextLine?_eq_some_iff.mp hr
    rcases h.stops with hq | ⟨-, hq⟩
    · -- the stop is at the ceiling, and no entry before it is on another line
      rcases Nat.lt_or_ge r q with hlt | hge
      · rw [h.first r hir hlt] at hother
        cases hother
      · have hrq : r = q := by omega
        rw [← hrq]
        exact hother
    · exact hq
  · intro hother
    have hiq : i < q := by
      rcases h.stops with hq | ⟨hiq, -⟩
      · by_contra hle
        have hself : q = i := by omega
        rw [hself, onOtherLine_self] at hother
        cases hother
      · exact hiq
    exact ⟨q, nextLine?_eq_some_iff.mpr ⟨h.lt_size, hiq, hother, h.first⟩, h.le_ceiling⟩

namespace Player

section Standing

variable {limits : PlayerLimits} {t : Trace} {ceiling i : Nat} {p : Player} {line : LineStep}

/-- The flag says that small steps were spent, and they are unless there are none to spend. -/
theorem lineChanged_iff_of_outcome (hi : i < t.entries.size)
    (h : Outcome limits t (t.line? i) ceiling 0 i (p, .ok line)) :
    (line.lineChanged = true ↔ 0 < line.microSteps)
    ∧ (line.lineChanged = true ↔ 0 < ceiling) := by
  cases h with
  | stopped q hclear hlt hle hceiling hstop =>
    have hspent : 0 < 0 + (q - i) ↔ 0 < ceiling := by
      rcases hstop with hused | ⟨hiq, -⟩ <;> omega
    have hflag : decide (0 < 0 + (q - i)) = true ↔ 0 < 0 + (q - i) := decide_eq_true_iff
    exact ⟨hflag, hflag.trans hspent⟩
  | ended hclear hceiling =>
    have hspent : 0 < 0 + (t.entries.size - i) := by omega
    have hsome : 0 < ceiling := by omega
    exact ⟨iff_of_true rfl hspent, iff_of_true rfl hsome⟩

/-- Another line is reported exactly if the next line is within the ceiling. -/
theorem moved_iff_of_outcome (h : Outcome limits t (t.line? i) ceiling 0 i (p, .ok line)) :
    line.Moved (t.line? i) ↔ t.LineWithin ceiling i := by
  cases h with
  | stopped q hclear hlt hle hceiling hstop =>
    have hisStop : t.IsStop ceiling i q := ⟨hlt, hceiling, hclear.same_line, hstop⟩
    rw [hisStop.lineWithin_iff]
    exact Trace.opensRun_eq_true_iff.symm
  | ended hclear hceiling =>
    constructor
    · rintro ⟨l, hl, -⟩
      cases hl
    · rintro ⟨q, hq, -⟩
      rw [Trace.nextLine?_eq_none_iff.mpr hclear.same_line] at hq
      cases hq

/-- A call that does not come to another line has used up its small steps, or has played out. -/
theorem not_moved_of_outcome (h : Outcome limits t (t.line? i) ceiling 0 i (p, .ok line))
    (hstays : ¬line.Moved (t.line? i)) :
    (line.hasMore = true ∧ line.microSteps = ceiling
      ∧ (line.newLine = none ∨ line.newLine = t.line? i))
    ∨ (line.hasMore = false ∧ line.newLine = none ∧ p.isDone = true) := by
  cases h with
  | stopped q hclear hlt hle hceiling hstop =>
    have hsame : ¬Trace.opensRun (t.line? i) (t.line? q) = true :=
      fun hopens => hstays (Trace.opensRun_eq_true_iff.mp hopens)
    rw [Bool.not_eq_true] at hsame
    refine Or.inl ⟨rfl, ?_, Trace.opensRun_eq_false_iff.mp hsame⟩
    rcases hstop with hused | ⟨-, hother⟩
    · show 0 + (q - i) = ceiling
      omega
    · rw [hsame] at hother
      cases hother
  | ended => exact Or.inr ⟨rfl, rfl, rfl⟩

end Standing

/-- Take any player that its users can come to, and any ceiling, and let a call that goes on to the next
line be accepted. Its flag says that small steps were spent. If the player is done, none are and nothing
is reported. If it is not, it stands on an entry of its trace; the flag is set whenever the ceiling
allows a small step, while another line is reported exactly if the next line is within the ceiling. So
the flag tells the truth exactly if there was no small step to take or the next line was near enough;
and where it does not, the call was cut short, having reached no line or the line it started from, or it
has played out. -/
theorem Reachable.truthful_iff {p p' : Player} {ceiling : Nat} {line : LineStep} (h : Reachable p)
    (hcall : p.stepToNextLine ceiling = (p', .ok line)) :
    (line.lineChanged = true ↔ 0 < line.microSteps)
    ∧ (p.isDone = true → line = .finished 0)
    ∧ (p.isDone = false → ∃ t, p.trace = some t ∧ p.position < t.entries.size
        ∧ p.currentLine? = t.line? p.position
        ∧ (line.lineChanged = true ↔ 0 < ceiling)
        ∧ (line.Moved p.currentLine? ↔ t.LineWithin ceiling p.position)
        ∧ (line.Truthful p.currentLine? ↔ ceiling = 0 ∨ t.LineWithin ceiling p.position)
        ∧ (¬line.Truthful p.currentLine? →
            (line.hasMore = true ∧ line.microSteps = ceiling
              ∧ (line.newLine = none ∨ line.newLine = p.currentLine?))
            ∨ (line.hasMore = false ∧ line.newLine = none ∧ p'.isDone = true))) := by
  by_cases hdone : p.isDone = true
  · rw [stepToNextLine_of_isDone hdone] at hcall
    have hline : line = .finished 0 := by
      injection hcall with _ hline
      injection hline with hline
      exact hline.symm
    refine ⟨?_, fun _ => hline, ?_⟩
    · rw [hline]
      exact iff_of_false Bool.false_ne_true (Nat.lt_irrefl 0)
    · intro hgo
      rw [hdone] at hgo
      cases hgo
  · rcases h.done_or_standing with hdone' | ⟨t, i, hp, hi⟩
    · exact absurd hdone' hdone
    · have houtcome : Outcome p.limits t (t.line? i) ceiling 0 i _ :=
        outcome_stepToNextLine p.limits t hi
      rw [← hp, hcall] at houtcome
      obtain ⟨hspent, hflag⟩ := lineChanged_iff_of_outcome hi houtcome
      have hmoved := moved_iff_of_outcome houtcome
      have htruthful : line.Truthful (t.line? i) ↔ ceiling = 0 ∨ t.LineWithin ceiling i := by
        unfold LineStep.Truthful
        rw [hflag, hmoved, Nat.pos_iff_ne_zero]
        exact ⟨fun h => (Decidable.em (ceiling = 0)).imp_right h, fun h hc => h.resolve_left hc⟩
      have hposition : p.position = i := congrArg Player.position hp
      have hcurrent : p.currentLine? = t.line? i := by
        rw [hp]
        rfl
      have htrace : p.trace = some t := congrArg Player.trace hp
      refine ⟨hspent, fun hd => absurd hd hdone, fun _ => ?_⟩
      rw [hposition, hcurrent]
      refine ⟨t, htrace, hi, rfl, hflag, hmoved, htruthful, ?_⟩
      intro hfalse
      refine not_moved_of_outcome houtcome ?_
      intro hm
      exact hfalse fun _ => hm

/-- On the four entries a call with two small steps to spend reports truly that it has come from line
one to line two, and one with a single small step reports falsely that the line has changed. -/
theorem fourEntries_truthful :
    let p := ((idle ⟨9, 9⟩).load fourEntriesText).1
    Reachable p
    ∧ (∃ p' line, p.stepToNextLine 2 = (p', .ok line) ∧ line.Truthful p.currentLine?)
    ∧ ∃ p' line, p.stepToNextLine 1 = (p', .ok line) ∧ ¬line.Truthful p.currentLine? := by
  intro p
  have hp : p = standing ⟨9, 9⟩ fourEntries 0 := congrArg Prod.fst (load_fourEntriesText ⟨9, 9⟩)
  have hreachable : Reachable p := .load (.idle ⟨9, 9⟩) fourEntriesText
  have hgo : p.isDone = false := by
    rw [hp]
    rfl
  have htwo : p.stepToNextLine 2 = (standing ⟨9, 9⟩ fourEntries 2, .ok ⟨true, true, some 2, 2⟩) := by
    rw [hp]
    rfl
  have hone : p.stepToNextLine 1 = (standing ⟨9, 9⟩ fourEntries 1, .ok ⟨true, true, some 1, 1⟩) := by
    rw [hp]
    rfl
  -- from the first entry the next line is two entries ahead
  have hnext : ∀ t, p.trace = some t → t.nextLine? p.position = some 2 ∧ p.position = 0 := by
    intro t ht
    rw [hp] at ht ⊢
    injection ht with ht
    rw [← ht]
    exact ⟨by decide, rfl⟩
  refine ⟨hreachable, ⟨_, _, htwo, ?_⟩, ⟨_, _, hone, ?_⟩⟩
  · obtain ⟨t, ht, -, -, -, -, htruthful, -⟩ := (hreachable.truthful_iff htwo).2.2 hgo
    obtain ⟨hline, hposition⟩ := hnext t ht
    exact htruthful.mpr (Or.inr ⟨2, hline, by omega⟩)
  · obtain ⟨t, ht, -, -, -, -, htruthful, -⟩ := (hreachable.truthful_iff hone).2.2 hgo
    obtain ⟨hline, hposition⟩ := hnext t ht
    intro hfalse
    rcases htruthful.mp hfalse with hzero | ⟨q, hq, hle⟩
    · cases hzero
    · rw [hline] at hq
      injection hq with hq
      omega

/-- The flag does not always tell the truth. On the four entries a first call with one small step to
spend starts and stops on line one, and a call from the last entry runs over the end of the trace and
reports no line; both report a change. -/
theorem flag_of_cut_call :
    let p := ((idle ⟨9, 9⟩).load fourEntriesText).1
    let last := (p.playLines [2, 2]).1
    (Reachable p ∧ p.currentLine? = some 1
      ∧ (p.stepToNextLine 1).2 = .ok ⟨true, true, some 1, 1⟩
      ∧ ¬(⟨true, true, some 1, 1⟩ : LineStep).Truthful p.currentLine?)
    ∧ (Reachable last ∧ last.currentLine? = some 3
      ∧ (last.stepToNextLine 1).2 = .ok ⟨false, true, none, 1⟩
      ∧ ¬(⟨false, true, none, 1⟩ : LineStep).Truthful last.currentLine?) := by
  intro p last
  have hp : p = standing ⟨9, 9⟩ fourEntries 0 := congrArg Prod.fst (load_fourEntriesText ⟨9, 9⟩)
  have hreachable : Reachable p := .load (.idle ⟨9, 9⟩) fourEntriesText
  have hlast : last = standing ⟨9, 9⟩ fourEntries 3 := by
    show (p.playLines [2, 2]).1 = _
    rw [hp]
    rfl
  have hcurrent : p.currentLine? = some 1 := by
    rw [hp]
    rfl
  refine ⟨⟨hreachable, hcurrent, ?_, ?_⟩, (hreachable.line 2).line 2, ?_, ?_, ?_⟩
  · rw [hp]
    rfl
  · intro htrue
    obtain ⟨l, hl, hother⟩ := htrue rfl
    exact hother (hcurrent.trans hl)
  · rw [hlast]
    rfl
  · rw [hlast]
    rfl
  · intro htrue
    obtain ⟨l, hl, -⟩ := htrue rfl
    cases hl

end Player

end Retrace
