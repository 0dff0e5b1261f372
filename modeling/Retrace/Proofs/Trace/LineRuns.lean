import Mathlib.Data.List.Sort
import Retrace.Proofs.Trace.Stops
/-!
# The stops of a trace are its line runs

What a logical step is gets said twice. `lineCount` goes over the entries once and remembers the last line
that it has seen; a replay compares with the line of the entry that it started from, up to its ceiling.
They come to the same: the line remembered at an entry (`runLine?`) is the line of the last stop, for a
block of entries without another line keeps it. So the stops after the first entry are the first entries of
the runs (`runStarts`), apart from a run that begins with the first entry of all, provided that no block is
longer than the ceiling (`RunsWithin`).
-/

namespace Retrace

namespace Trace

variable {t : Trace} {ceiling p : Nat}

/-- The last line seen before entry `i`, none if no entry before it has a line. -/
def runLine? (t : Trace) : Nat → Option Nat
  | 0 => none
  | i + 1 => (t.line? i).or (t.runLine? i)

/-- Whether entry `i` begins a run: it has a line, and not the one seen last. -/
def startsRun (t : Trace) (i : Nat) : Bool := opensRun (t.runLine? i) (t.line? i)

/-- The first entries of the runs, in their order. -/
def runStarts (t : Trace) : List Nat := (List.range t.entries.size).filter t.startsRun

/-- The first entry after `p` that begins a run. -/
def nextRun? (t : Trace) (p : Nat) : Option Nat :=
  (List.range t.entries.size).find? fun q => p < q && t.startsRun q

/-- The number of entries from entry `p` to the next run, or to the end of the trace. -/
def blockLength (t : Trace) (p : Nat) : Nat := (t.nextRun? p).getD t.entries.size - p

/-- No run has more entries than a step may take small steps, and no more entries come before the
first run. -/
def RunsWithin (t : Trace) (ceiling : Nat) : Prop :=
  ∀ p, p < t.entries.size → (p = 0 ∨ t.startsRun p = true) → t.blockLength p ≤ ceiling

/-! ## The count -/

/-- One step of the count remembers the last line seen. -/
theorem runLine?_succ (t : Trace) (i : Nat) :
    t.runLine? (i + 1) = if t.startsRun i then t.line? i else t.runLine? i := by
  show (t.line? i).or (t.runLine? i) = _
  cases hstarts : t.startsRun i with
  | true =>
    obtain ⟨l, hl, -⟩ := opensRun_eq_true_iff.mp hstarts
    rw [if_pos rfl, hl]
    rfl
  | false =>
    rw [if_neg Bool.false_ne_true]
    rcases opensRun_eq_false_iff.mp hstarts with hl | hl
    · rw [hl]
      rfl
    · rw [hl, Option.or_self]

/-- The count after the first entries, and the line it remembers. The induction is on these entries. -/
theorem foldl_count (t : Trace) :
    ∀ n, n ≤ t.entries.size →
      (t.entries.toList.take n).foldl
          (fun (count, previous) e =>
            if opensRun previous e.line then (count + 1, e.line) else (count, previous)) (0, none)
        = (((List.range n).filter t.startsRun).length, t.runLine? n)
  | 0, _ => rfl
  | n + 1, h => by
    have hn : n < t.entries.toList.length := h
    have hentry : t.line? n = t.entries.toList[n].line := by
      unfold line?
      rw [← Array.getElem?_toList, List.getElem?_eq_getElem hn]
      rfl
    rw [List.take_succ_eq_append_getElem hn, List.foldl_append, foldl_count t n (by omega),
      List.range_succ, List.filter_append, List.length_append, runLine?_succ]
    simp only [List.foldl_cons, List.foldl_nil, ← hentry]
    show (if t.startsRun n = true then _ else _) = _
    cases hstarts : t.startsRun n <;> simp [hstarts]

/-- The count is the number of runs. -/
theorem lineCount_eq (t : Trace) : t.lineCount = t.runStarts.length := by
  have hcount := t.foldl_count t.entries.size (Nat.le_refl _)
  rw [← Array.length_toList, List.take_length, Array.foldl_toList] at hcount
  exact congrArg Prod.fst hcount

/-! ## The stops -/

theorem lt_size_of_startsRun {q : Nat} (h : t.startsRun q = true) : q < t.entries.size := by
  obtain ⟨l, hl, -⟩ := opensRun_eq_true_iff.mp h
  obtain ⟨e, he, -⟩ := Option.bind_eq_some_iff.mp hl
  exact (Array.getElem?_eq_some_iff.mp he).choose

theorem mem_runStarts {q : Nat} : q ∈ t.runStarts ↔ t.startsRun q = true := by
  unfold runStarts
  rw [List.mem_filter, List.mem_range]
  exact ⟨fun h => h.2, fun h => ⟨lt_size_of_startsRun h, h⟩⟩

/-- Up to the next run the line seen last is that of the entry where the block begins. The induction is
on the entries of the block. -/
theorem runLine?_of_block (hp : p = 0 ∨ t.startsRun p = true) :
    ∀ k, (∀ j, p < j → j < p + 1 + k → t.startsRun j = false) →
      t.runLine? (p + 1 + k) = t.line? p
  | 0, _ => by
    rw [Nat.add_zero, runLine?_succ]
    rcases hp with rfl | hp
    · -- before the first entry no line was seen
      cases hstarts : t.startsRun 0 with
      | true => rfl
      | false =>
        rcases opensRun_eq_false_iff.mp hstarts with hl | hl <;> rw [hl] <;> rfl
    · rw [if_pos hp]
  | k + 1, h => by
    have hsame := runLine?_of_block hp k fun j hpj hj => h j hpj (by omega)
    have hnot := h (p + 1 + k) (by omega) (by omega)
    show t.runLine? (p + 1 + k + 1) = t.line? p
    rw [runLine?_succ, hnot, if_neg Bool.false_ne_true, hsame]

/-- In a block and right after it, to begin a run is to have another line than the first entry. -/
theorem startsRun_eq_onOtherLine (hp : p = 0 ∨ t.startsRun p = true) {j : Nat} (hpj : p < j)
    (hblock : ∀ i, p < i → i < j → t.startsRun i = false) :
    t.startsRun j = t.onOtherLine p j := by
  have hj : j = p + 1 + (j - (p + 1)) := by omega
  have hline : t.runLine? j = t.line? p := by
    rw [hj]
    refine runLine?_of_block hp _ ?_
    intro i hpi hi
    exact hblock i hpi (by omega)
  unfold startsRun onOtherLine
  rw [hline]

/-- From the first entry of a block the next line is the next run. -/
theorem nextLine?_eq_nextRun? (hp : p = 0 ∨ t.startsRun p = true) :
    t.nextLine? p = t.nextRun? p := by
  cases hnext : t.nextRun? p with
  | some q =>
    obtain ⟨hq, hpq, hstarts, hblock⟩ := find?_after_eq_some_iff.mp hnext
    have hsame : ∀ j, p < j → j ≤ q → t.startsRun j = t.onOtherLine p j := by
      intro j hpj hjq
      exact startsRun_eq_onOtherLine hp hpj fun i hpi hij => hblock i hpi (by omega)
    refine nextLine?_eq_some_iff.mpr ⟨hq, hpq, ?_, ?_⟩
    · rw [← hsame q hpq (Nat.le_refl q)]
      exact hstarts
    · intro j hpj hjq
      rw [← hsame j hpj (by omega)]
      exact hblock j hpj hjq
  | none =>
    have hblock := find?_after_eq_none_iff.mp hnext
    refine nextLine?_eq_none_iff.mpr ?_
    intro j hpj hj
    rw [← startsRun_eq_onOtherLine hp hpj fun i hpi hij => hblock i hpi (by omega)]
    exact hblock j hpj hj

/-- A step from there comes to the next run if the block is within its ceiling. -/
theorem nextStop?_eq_nextRun? (hp : p = 0 ∨ t.startsRun p = true)
    (hblock : t.blockLength p ≤ ceiling) : t.nextStop? ceiling p = t.nextRun? p := by
  unfold blockLength at hblock
  unfold nextStop?
  rw [nextLine?_eq_nextRun? hp]
  cases hnext : t.nextRun? p with
  | some q =>
    rw [hnext] at hblock
    have hnear : q ≤ p + ceiling := by
      have hlength : q - p ≤ ceiling := hblock
      omega
    have hkept : (some q).filter (· ≤ p + ceiling) = some q := by simp [hnear]
    rw [hkept]
  | none =>
    rw [hnext] at hblock
    have hend : ¬p + ceiling < t.entries.size := by
      have hlength : t.entries.size - p ≤ ceiling := hblock
      omega
    show (if p + ceiling < t.entries.size then some (p + ceiling) else none) = none
    rw [if_neg hend]

/-- The stops from there on are the entries that begin later runs. The induction is on the entries
ahead. -/
theorem mem_stopsFrom_iff (hruns : t.RunsWithin ceiling) (p : Nat) (hlt : p < t.entries.size)
    (hp : p = 0 ∨ t.startsRun p = true) {q : Nat} :
    q ∈ t.stopsFrom ceiling p ↔ p < q ∧ t.startsRun q = true := by
  have hnext := nextStop?_eq_nextRun? hp (hruns p hlt hp)
  cases hrun : t.nextRun? p with
  | none =>
    rw [hrun] at hnext
    rw [stopsFrom_of_none hnext]
    have hnone := find?_after_eq_none_iff.mp hrun
    refine ⟨fun h => absurd h List.not_mem_nil, ?_⟩
    intro h
    obtain ⟨hpq, hstarts⟩ := h
    rw [hnone q hpq (lt_size_of_startsRun hstarts)] at hstarts
    cases hstarts
  | some r =>
    rw [hrun] at hnext
    obtain ⟨hr, hpr, hstarts, hblock⟩ := find?_after_eq_some_iff.mp hrun
    have hlater := mem_stopsFrom_iff hruns r hr (Or.inr hstarts) (q := q)
    rw [stopsFrom_of_some hnext hpr, List.mem_cons, hlater]
    constructor
    · intro h
      rcases h with rfl | ⟨hrq, hq⟩
      · exact ⟨hpr, hstarts⟩
      · exact ⟨by omega, hq⟩
    · intro h
      obtain ⟨hpq, hq⟩ := h
      rcases Nat.lt_trichotomy q r with hqr | rfl | hrq
      · -- no run begins before the next one
        rw [hblock q hpq hqr] at hq
        cases hq
      · exact Or.inl rfl
      · exact Or.inr ⟨hrq, hq⟩
termination_by t.entries.size - p

theorem runStarts_increasing (t : Trace) : t.runStarts.Pairwise (· < ·) :=
  List.pairwise_lt_range.filter _

section Runs

variable (hc : 0 < ceiling) (hpos : 0 < t.entries.size) (hruns : t.RunsWithin ceiling)

include hc hpos hruns

/-- If the first entry has a line, the stops begin all runs but the first. -/
theorem runStarts_of_line (hline : (t.line? 0).isSome = true) :
    t.runStarts = 0 :: t.stopsFrom ceiling 0 := by
  have hfirst : t.startsRun 0 = true := by
    obtain ⟨l, hl⟩ := Option.isSome_iff_exists.mp hline
    exact opensRun_eq_true_iff.mpr ⟨l, hl, nofun⟩
  obtain ⟨hincreasing, hafter⟩ := stopsFrom_increasing (t := t) hc 0
  have hall : (0 :: t.stopsFrom ceiling 0).Pairwise (· < ·) :=
    List.pairwise_cons.mpr ⟨fun q hq => (hafter q hq).1, hincreasing⟩
  refine t.runStarts_increasing.eq_of_mem_iff hall ?_
  intro q
  rw [mem_runStarts, List.mem_cons, mem_stopsFrom_iff hruns 0 hpos (Or.inl rfl)]
  constructor
  · intro hq
    rcases Nat.eq_zero_or_pos q with hzero | hq'
    · exact Or.inl hzero
    · exact Or.inr ⟨hq', hq⟩
  · intro h
    rcases h with rfl | ⟨-, hq⟩
    · exact hfirst
    · exact hq

/-- If it has none, the stops begin all runs. -/
theorem runStarts_of_no_line (hline : t.line? 0 = none) : t.runStarts = t.stopsFrom ceiling 0 := by
  have hfirst : t.startsRun 0 = false := opensRun_eq_false_iff.mpr (Or.inl hline)
  obtain ⟨hincreasing, -⟩ := stopsFrom_increasing (t := t) hc 0
  refine t.runStarts_increasing.eq_of_mem_iff hincreasing ?_
  intro q
  rw [mem_runStarts, mem_stopsFrom_iff hruns 0 hpos (Or.inl rfl)]
  refine ⟨fun hq => ⟨?_, hq⟩, fun h => h.2⟩
  rcases Nat.eq_zero_or_pos q with rfl | hpos'
  · rw [hfirst] at hq
    cases hq
  · exact hpos'

end Runs

end Trace

end Retrace
