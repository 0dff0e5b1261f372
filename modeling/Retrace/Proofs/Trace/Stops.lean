import Retrace.Trace.Player
import Mathlib.Data.List.TakeWhile
/-!
# The stops of a trace

Where a replay that goes line by line comes to rest, said on the trace alone: from entry `p` the next
stop is the first later entry on another line, unless that is more than `ceiling` entries ahead, and
then the entry `ceiling` ahead, if there is one. `IsStop` says the same without a search
(`nextStop?_eq_some_iff`).

A small step that leaves entry `p` may fail (`failure?`): at the limit on steps, at the limit on the
call stack, or because the entry that it reaches carries an error. `reachedStops` are the stops up to
the first small step that fails.
-/

namespace Retrace

namespace Trace

/-- An entry that does not open a run has no line, or the line of the run. -/
theorem opensRun_eq_false_iff {previous line : Option Nat} :
    opensRun previous line = false ↔ line = none ∨ line = previous := by
  cases line with
  | none => simp [opensRun]
  | some l => simp [opensRun]

theorem opensRun_eq_true_iff {previous line : Option Nat} :
    opensRun previous line = true ↔ ∃ l, line = some l ∧ previous ≠ some l := by
  cases line with
  | none => simp [opensRun]
  | some l =>
    simp only [opensRun, Option.isSome_some, Bool.true_and, bne_iff_ne, ne_eq, Option.some.injEq,
      exists_eq_left']
    exact not_congr eq_comm

/-- The line of an entry. -/
def line? (t : Trace) (i : Nat) : Option Nat := t.entries[i]?.bind Entry.line

/-- Whether entry `q` is on a line other than that of entry `p`; an entry without a line is not. -/
def onOtherLine (t : Trace) (p q : Nat) : Bool := opensRun (t.line? p) (t.line? q)

/-- The first entry after `p` on another line. -/
def nextLine? (t : Trace) (p : Nat) : Option Nat :=
  (List.range t.entries.size).find? fun q => p < q && t.onOtherLine p q

/-- The stop after the stop at entry `p`: the next line if it is within the ceiling, and else the
entry at the ceiling, if there is one. -/
def nextStop? (t : Trace) (ceiling p : Nat) : Option Nat :=
  match (t.nextLine? p).filter (· ≤ p + ceiling) with
  | some q => some q
  | none => if p + ceiling < t.entries.size then some (p + ceiling) else none

/-- What makes entry `q` the stop after `p`: it is within the ceiling and the first on another line,
or it is at the ceiling and none before it is on another line. -/
structure IsStop (t : Trace) (ceiling p q : Nat) : Prop where
  lt_size : q < t.entries.size
  le_ceiling : q ≤ p + ceiling
  first : ∀ j, p < j → j < q → t.onOtherLine p j = false
  stops : q = p + ceiling ∨ (p < q ∧ t.onOtherLine p q = true)

/-- The first entry after `p` with some property, found by going through all entries. -/
theorem find?_after_eq_some_iff {n p q : Nat} {f : Nat → Bool} :
    ((List.range n).find? fun q => p < q && f q) = some q ↔
      q < n ∧ p < q ∧ f q = true ∧ ∀ j, p < j → j < q → f j = false := by
  rw [List.find?_range_eq_some]
  simp only [Bool.and_eq_true, decide_eq_true_eq, List.mem_range, Bool.not_eq_true']
  constructor
  · intro h
    obtain ⟨⟨hpq, hother⟩, hq, hfirst⟩ := h
    refine ⟨hq, hpq, hother, ?_⟩
    intro j hpj hjq
    have := hfirst j hjq
    simpa [hpj] using this
  · intro h
    obtain ⟨hq, hpq, hother, hfirst⟩ := h
    refine ⟨⟨hpq, hother⟩, hq, ?_⟩
    intro j hjq
    by_cases hpj : p < j
    · simp [hfirst j hpj hjq]
    · simp [hpj]

theorem find?_after_eq_none_iff {n p : Nat} {f : Nat → Bool} :
    ((List.range n).find? fun q => p < q && f q) = none ↔
      ∀ j, p < j → j < n → f j = false := by
  rw [List.find?_eq_none]
  simp only [List.mem_range, Bool.and_eq_true, decide_eq_true_eq, not_and, Bool.not_eq_true]
  exact ⟨fun h j hpj hj => h j hj hpj, fun h j hj hpj => h j hpj hj⟩

theorem nextLine?_eq_some_iff {t : Trace} {p q : Nat} :
    t.nextLine? p = some q ↔
      q < t.entries.size ∧ p < q ∧ t.onOtherLine p q = true
        ∧ ∀ j, p < j → j < q → t.onOtherLine p j = false :=
  find?_after_eq_some_iff

theorem nextLine?_eq_none_iff {t : Trace} {p : Nat} :
    t.nextLine? p = none ↔ ∀ j, p < j → j < t.entries.size → t.onOtherLine p j = false :=
  find?_after_eq_none_iff

/-- The search for the next stop finds what `IsStop` describes. -/
theorem nextStop?_eq_some_iff {t : Trace} {ceiling p q : Nat} :
    t.nextStop? ceiling p = some q ↔ t.IsStop ceiling p q := by
  unfold nextStop?
  constructor
  · intro h
    split at h
    next r hr =>
      injection h with h
      subst h
      obtain ⟨hline, hle⟩ := Option.filter_eq_some_iff.mp hr
      obtain ⟨hlt, hpq, hother, hfirst⟩ := nextLine?_eq_some_iff.mp hline
      exact ⟨hlt, by simpa using hle, hfirst, Or.inr ⟨hpq, hother⟩⟩
    next hr =>
      split at h
      next hlt =>
        injection h with h
        subst h
        refine ⟨hlt, Nat.le_refl _, ?_, Or.inl rfl⟩
        intro j hpj hj
        -- an entry on another line before the ceiling would have been found
        cases hline : t.nextLine? p with
        | none => exact nextLine?_eq_none_iff.mp hline j hpj (by omega)
        | some r =>
          rw [hline] at hr
          have hfar : ¬r ≤ p + ceiling := by simpa using hr
          obtain ⟨-, -, -, hfirst⟩ := nextLine?_eq_some_iff.mp hline
          exact hfirst j hpj (by omega)
      next => cases h
  · intro h
    obtain ⟨hlt, hle, hfirst, hstop⟩ := h
    by_cases hother : p < q ∧ t.onOtherLine p q = true
    · -- `q` is the next line, and near enough
      have hline : t.nextLine? p = some q :=
        nextLine?_eq_some_iff.mpr ⟨hlt, hother.1, hother.2, hfirst⟩
      have hnear : (t.nextLine? p).filter (· ≤ p + ceiling) = some q := by
        rw [hline]
        simp [hle]
      rw [hnear]
    · -- `q` is at the ceiling, and the next line is beyond it
      have hq : q = p + ceiling := by
        rcases hstop with hq | hq
        · exact hq
        · exact absurd hq hother
      have hnear : (t.nextLine? p).filter (· ≤ p + ceiling) = none := by
        cases hline : t.nextLine? p with
        | none => rfl
        | some r =>
          obtain ⟨-, hpr, hor, -⟩ := nextLine?_eq_some_iff.mp hline
          have hfar : ¬r ≤ p + ceiling := by
            intro hr
            rcases Nat.lt_or_eq_of_le hr with hlt' | he
            · rw [hfirst r hpr (by omega)] at hor
              cases hor
            · exact hother ⟨by omega, by rw [hq, ← he]; exact hor⟩
          simp
          omega
      rw [hnear]
      show (if p + ceiling < t.entries.size then some (p + ceiling) else none) = some q
      rw [if_pos (by omega), hq]

/-- With no other line ahead and no entry at the ceiling there is no next stop. -/
theorem nextStop?_eq_none {t : Trace} {ceiling p : Nat} (hend : t.entries.size ≤ p + ceiling)
    (hsame : ∀ j, p < j → j < t.entries.size → t.onOtherLine p j = false) :
    t.nextStop? ceiling p = none := by
  cases h : t.nextStop? ceiling p with
  | none => rfl
  | some q =>
    obtain ⟨hlt, -, -, hstop⟩ := nextStop?_eq_some_iff.mp h
    rcases hstop with hq | ⟨hpq, hother⟩
    · omega
    · rw [hsame q hpq hlt] at hother
      cases hother

/-- The stops after the one at entry `p`, in their order. -/
def stopsFrom (t : Trace) (ceiling p : Nat) : List Nat :=
  match _h : t.nextStop? ceiling p with
  | none => []
  | some q => if p < q then q :: t.stopsFrom ceiling q else []
termination_by t.entries.size - p
decreasing_by
  have := (nextStop?_eq_some_iff.mp _h).lt_size
  omega

theorem stopsFrom_of_none {t : Trace} {ceiling p : Nat} (h : t.nextStop? ceiling p = none) :
    t.stopsFrom ceiling p = [] := by
  rw [stopsFrom]
  split
  next => rfl
  next q hq => rw [h] at hq; cases hq

theorem stopsFrom_of_some {t : Trace} {ceiling p q : Nat} (h : t.nextStop? ceiling p = some q)
    (hpq : p < q) : t.stopsFrom ceiling p = q :: t.stopsFrom ceiling q := by
  rw [stopsFrom]
  split
  next hn => rw [h] at hn; cases hn
  next r hr =>
    rw [h] at hr
    injection hr with hr
    subst hr
    rw [if_pos hpq]

theorem lt_of_nextStop? {t : Trace} {ceiling p q : Nat} (hc : 0 < ceiling)
    (h : t.nextStop? ceiling p = some q) : p < q := by
  rcases (nextStop?_eq_some_iff.mp h).stops with hq | ⟨hpq, -⟩
  · omega
  · exact hpq

/-- The stops after entry `p` are later entries of the trace, in increasing order. The induction is on
the entries ahead. -/
theorem stopsFrom_increasing {t : Trace} {ceiling : Nat} (hc : 0 < ceiling) (p : Nat) :
    (t.stopsFrom ceiling p).Pairwise (· < ·)
      ∧ ∀ q ∈ t.stopsFrom ceiling p, p < q ∧ q < t.entries.size := by
  cases h : t.nextStop? ceiling p with
  | none =>
    rw [stopsFrom_of_none h]
    exact ⟨List.Pairwise.nil, fun q hq => absurd hq List.not_mem_nil⟩
  | some q =>
    have hpq := lt_of_nextStop? hc h
    have hlt := (nextStop?_eq_some_iff.mp h).lt_size
    obtain ⟨hpairwise, hmem⟩ := stopsFrom_increasing hc q
    rw [stopsFrom_of_some h hpq]
    refine ⟨List.pairwise_cons.mpr ⟨fun r hr => (hmem r hr).1, hpairwise⟩, ?_⟩
    intro r hr
    rcases List.mem_cons.mp hr with rfl | hr
    · exact ⟨hpq, hlt⟩
    · have := hmem r hr
      omega
termination_by t.entries.size - p

/-- If every entry is on another line than the one before, every entry is a stop. The induction is on
the entries ahead. -/
theorem stopsFrom_of_linewise {t : Trace} {ceiling : Nat} (hc : 0 < ceiling)
    (hlines : ∀ p, p + 1 < t.entries.size → t.onOtherLine p (p + 1) = true) (p : Nat)
    (hp : p < t.entries.size) :
    t.stopsFrom ceiling p = List.range' (p + 1) (t.entries.size - (p + 1)) := by
  by_cases hlast : p + 1 < t.entries.size
  · have hstop : t.nextStop? ceiling p = some (p + 1) := by
      refine nextStop?_eq_some_iff.mpr ⟨hlast, by omega, ?_, Or.inr ⟨by omega, hlines p hlast⟩⟩
      intro j hpj hj
      omega
    have hcount : t.entries.size - (p + 1) = t.entries.size - (p + 1 + 1) + 1 := by omega
    rw [stopsFrom_of_some hstop (Nat.lt_succ_self p), stopsFrom_of_linewise hc hlines (p + 1) hlast,
      hcount, List.range'_succ]
  · have hnone : t.nextStop? ceiling p = none := by
      refine nextStop?_eq_none (by omega) ?_
      intro j hpj hj
      omega
    have hcount : t.entries.size - (p + 1) = 0 := by omega
    rw [stopsFrom_of_none hnone, hcount]
    rfl
termination_by t.entries.size - p

theorem length_stopsFrom_lt {t : Trace} {ceiling : Nat} (hc : 0 < ceiling) (p : Nat)
    (hp : p < t.entries.size) : (t.stopsFrom ceiling p).length + p < t.entries.size := by
  cases h : t.nextStop? ceiling p with
  | none =>
    rw [stopsFrom_of_none h, List.length_nil]
    omega
  | some q =>
    have hpq := lt_of_nextStop? hc h
    have hq := length_stopsFrom_lt hc q (nextStop?_eq_some_iff.mp h).lt_size
    rw [stopsFrom_of_some h hpq, List.length_cons]
    omega
termination_by t.entries.size - p

/-- The failure of the small step that leaves entry `p`. The limits are tested before the step, the
error of the entry that it reaches after it. -/
def failure? (t : Trace) (limits : PlayerLimits) (p : Nat) : Option RunFailure :=
  if limits.maxSteps ≤ p then some (.stepLimit limits.maxSteps)
  else if limits.maxStackSize < t.entries[p]?.elim 0 (·.frames.length) then
    some (.stackLimit limits.maxStackSize)
  else (t.entries[p + 1]?.bind Entry.error).map .runtime

/-- A trace that is played to its end within some limits. -/
structure Fits (t : Trace) (limits : PlayerLimits) : Prop where
  no_error : ∀ (i : Nat) (e : Entry), t.entries[i]? = some e → e.error = none
  size_le : t.entries.size ≤ limits.maxSteps
  depth_le : ∀ (i : Nat) (e : Entry), t.entries[i]? = some e →
    e.frames.length ≤ limits.maxStackSize

/-- No small step fails in such a trace. -/
theorem Fits.no_failure {t : Trace} {limits : PlayerLimits} (h : t.Fits limits) (p : Nat)
    (hp : p < t.entries.size) : t.failure? limits p = none := by
  have hget : t.entries[p]? = some t.entries[p] := Array.getElem?_eq_getElem hp
  have hsteps : ¬limits.maxSteps ≤ p := by
    have := h.size_le
    omega
  have hstack : ¬limits.maxStackSize < (some t.entries[p]).elim 0 (·.frames.length) := by
    have := h.depth_le p _ hget
    show ¬limits.maxStackSize < t.entries[p].frames.length
    omega
  have herror : t.entries[p + 1]?.bind Entry.error = none := by
    cases hnext : t.entries[p + 1]? with
    | none => rfl
    | some e => exact h.no_error (p + 1) e hnext
  unfold failure?
  rw [if_neg hsteps, hget, if_neg hstack, herror]
  rfl

/-- Whether entry `q` is reached from the first entry without a failure. -/
def reaches (t : Trace) (limits : PlayerLimits) (q : Nat) : Bool :=
  (List.range q).all fun p => (t.failure? limits p).isNone

theorem reaches_iff {t : Trace} {limits : PlayerLimits} {q : Nat} :
    t.reaches limits q = true ↔ ∀ p, p < q → t.failure? limits p = none := by
  unfold reaches
  simp

/-- The stops after the one at entry `p`, up to the first small step that fails. -/
def reachedFrom (t : Trace) (limits : PlayerLimits) (ceiling p : Nat) : List Nat :=
  (t.stopsFrom ceiling p).takeWhile (t.reaches limits)

/-- The stops after the first entry, up to the first small step that fails. -/
def reachedStops (t : Trace) (limits : PlayerLimits) (ceiling : Nat) : List Nat :=
  t.reachedFrom limits ceiling 0

theorem reachedFrom_of_some {t : Trace} {limits : PlayerLimits} {ceiling p q : Nat}
    (h : t.nextStop? ceiling p = some q) (hpq : p < q) (hr : t.reaches limits q = true) :
    t.reachedFrom limits ceiling p = q :: t.reachedFrom limits ceiling q := by
  unfold reachedFrom
  rw [stopsFrom_of_some h hpq, List.takeWhile_cons_of_pos hr]

theorem reachedStops_of_no_failure {t : Trace} {limits : PlayerLimits} {ceiling : Nat}
    (hc : 0 < ceiling) (hfine : ∀ p, p < t.entries.size → t.failure? limits p = none) :
    t.reachedStops limits ceiling = t.stopsFrom ceiling 0 := by
  unfold reachedStops reachedFrom
  rw [List.takeWhile_eq_self_iff]
  intro q hq
  have hlt := ((stopsFrom_increasing hc 0).2 q hq).2
  rw [reaches_iff]
  intro p hp
  exact hfine p (by omega)

/-- Nothing is reached any more if the next stop, should there be one, is not. -/
theorem reachedFrom_eq_nil {t : Trace} {limits : PlayerLimits} {ceiling p : Nat}
    (h : ∀ q, t.nextStop? ceiling p = some q → t.reaches limits q = false) :
    t.reachedFrom limits ceiling p = [] := by
  unfold reachedFrom
  rw [stopsFrom]
  split
  next => rfl
  next q hq =>
    split
    · rw [List.takeWhile_cons_of_neg]
      rw [h q hq]
      exact Bool.false_ne_true
    · rfl

end Trace

/-- What a replay shows of an entry when it stops there: a copy, with the index of the entry as its
step number, and no checkpoint. -/
def Entry.copy (e : Entry) (step : Nat) : Snapshot :=
  ⟨⟨step, e.line, e.column, e.nodeType⟩, e.scopes, e.frames, none⟩

/-- The copies of the entries with the given indices. -/
def Trace.copies (t : Trace) (stops : List Nat) : List Snapshot :=
  stops.filterMap fun q => t.entries[q]?.map (·.copy q)

/-- A snapshot apart from its checkpoint. -/
def Snapshot.bare (s : Snapshot) : Snapshot := { s with checkpoint := none }

/-- The stops that are reached are entries of the trace, in increasing order. -/
theorem Trace.reachedStops_increasing {t : Trace} {ceiling : Nat} (hc : 0 < ceiling)
    (limits : PlayerLimits) :
    (t.reachedStops limits ceiling).Pairwise (· < ·)
      ∧ ∀ q ∈ t.reachedStops limits ceiling, q < t.entries.size := by
  obtain ⟨hpairwise, hmem⟩ := stopsFrom_increasing (t := t) hc 0
  have hsublist := List.takeWhile_sublist (l := t.stopsFrom ceiling 0) (t.reaches limits)
  exact ⟨hpairwise.sublist hsublist, fun q hq => (hmem q (hsublist.subset hq)).2⟩

/-- The copies of entries tell which entries they are copies of. -/
theorem Trace.stepNumber_copies {t : Trace} :
    ∀ {stops : List Nat}, (∀ q ∈ stops, q < t.entries.size) →
      (t.copies stops).map (·.position.stepNumber) = stops
  | [], _ => rfl
  | q :: stops, h => by
    have hq : q < t.entries.size := h q List.mem_cons_self
    have hrest := stepNumber_copies fun r hr => h r (List.mem_cons_of_mem q hr)
    unfold copies at hrest ⊢
    rw [List.filterMap_cons, Array.getElem?_eq_getElem hq]
    show q :: _ = q :: stops
    rw [hrest]

theorem Trace.length_copies {t : Trace} {stops : List Nat} (h : ∀ q ∈ stops, q < t.entries.size) :
    (t.copies stops).length = stops.length := by
  have hnumbers := congrArg List.length (stepNumber_copies h)
  rw [List.length_map] at hnumbers
  exact hnumbers

end Retrace
