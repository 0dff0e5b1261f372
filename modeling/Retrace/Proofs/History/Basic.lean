import Retrace.History
/-!
# What the moves of a history do

`Valid` is what every history has that was made by the moves: room for a snapshot, no more snapshots
than there is room for, and a cursor on one of them as soon as there is one. Under it each move has a
plain description in terms of `behind`, the snapshots up to the cursor:

> `append_retained`: an append keeps `behind`, less its oldest snapshot if the history was full with
> the cursor on its end (`overflows`), and adds the new snapshot.

The two tests `canStepBack` and `canStepForward` are the only guards of the moves, so a move succeeds
exactly if its test holds (`stepBack_isSome`, `stepForward_isSome`).
-/

namespace Retrace

namespace History

private theorem toList_take {α : Type} (a : Array α) (n : Nat) :
    (a.take n).toList = a.toList.take n := by
  simp

private theorem toList_drop {α : Type} (a : Array α) (n : Nat) :
    (a.drop n).toList = a.toList.drop n := by
  rw [Array.toList_extract, List.extract_eq_take_drop]
  apply List.take_of_length_le
  simp

/-- The invariant of a history. -/
structure Valid (h : History) : Prop where
  capacity_pos : 0 < h.capacity
  size_le : h.size ≤ h.capacity
  empty_of_cursor : h.cursor = none → h.size = 0
  cursor_lt : ∀ i, h.cursor = some i → i < h.size

/-- The snapshots up to the cursor, which an append does not drop as a redo branch. -/
def behind (h : History) : List Snapshot := h.retained.toList.take (h.cursor.elim 0 (· + 1))

/-- Whether the next append evicts: the history is full and the cursor is on its last snapshot. -/
def overflows (h : History) : Bool := h.cursor.map (· + 1) == some h.capacity

theorem valid_empty (config : HistoryConfig) : (empty config).Valid where
  capacity_pos := by
    show 0 < max config.maxHistory 1
    omega
  size_le := Nat.zero_le _
  empty_of_cursor _ := rfl
  cursor_lt i h := by
    have h : none = some i := h
    cases h

theorem Valid.clear {h : History} (hv : h.Valid) : h.clear.Valid where
  capacity_pos := hv.capacity_pos
  size_le := Nat.zero_le _
  empty_of_cursor _ := rfl
  cursor_lt i h := by
    have h : none = some i := h
    cases h

theorem Valid.cursor_eq_none_iff {h : History} (hv : h.Valid) : h.cursor = none ↔ h.size = 0 := by
  constructor
  · exact hv.empty_of_cursor
  · intro hs
    cases hc : h.cursor with
    | none => rfl
    | some i =>
      have := hv.cursor_lt i hc
      omega

theorem dropAhead_capacity (h : History) : h.dropAhead.capacity = h.capacity := by
  unfold dropAhead
  split <;> rfl

theorem dropAhead_captures (h : History) : h.dropAhead.captures = h.captures := by
  unfold dropAhead
  split <;> rfl

theorem dropAhead_limitShown (h : History) : h.dropAhead.limitShown = h.limitShown := by
  unfold dropAhead
  split <;> rfl

theorem Valid.dropAhead_retained {h : History} (hv : h.Valid) :
    h.dropAhead.retained.toList = h.behind := by
  unfold dropAhead behind
  cases hc : h.cursor with
  | none =>
    have hs : h.retained.toList = [] := by
      apply List.eq_nil_of_length_eq_zero
      exact hv.empty_of_cursor hc
    show h.retained.toList = List.take 0 h.retained.toList
    rw [hs, List.take_zero]
  | some i => exact toList_take h.retained (i + 1)

theorem Valid.length_behind {h : History} (hv : h.Valid) :
    h.behind.length = h.cursor.elim 0 (· + 1) := by
  unfold behind
  rw [List.length_take]
  cases hc : h.cursor with
  | none => rfl
  | some i =>
    have hi : i < h.retained.toList.length := hv.cursor_lt i hc
    show min (i + 1) h.retained.toList.length = i + 1
    omega

theorem Valid.dropAhead_size {h : History} (hv : h.Valid) :
    h.dropAhead.size = h.cursor.elim 0 (· + 1) := by
  rw [← hv.length_behind, ← hv.dropAhead_retained]
  rfl

/-- The append's own test for a full history, made after the redo branch was dropped, amounts to
`overflows`. -/
theorem Valid.full_iff {h : History} (hv : h.Valid) :
    h.dropAhead.capacity ≤ h.dropAhead.size ↔ h.overflows = true := by
  rw [dropAhead_capacity, hv.dropAhead_size]
  unfold overflows
  cases hc : h.cursor with
  | none =>
    have := hv.capacity_pos
    simp
    omega
  | some i =>
    have hi := hv.cursor_lt i hc
    have hs := hv.size_le
    simp
    omega

/-- A history that overflows has its cursor on the last of its places. -/
theorem exists_cursor_of_overflows {h : History} (ho : h.overflows = true) :
    ∃ i, h.cursor = some i ∧ i + 1 = h.capacity := by
  have hlast : h.cursor.map (· + 1) = some h.capacity := by simpa [overflows] using ho
  exact Option.map_eq_some_iff.mp hlast

/-- The snapshots that an append keeps. -/
def kept (h : History) : List Snapshot := if h.overflows then h.behind.drop 1 else h.behind

/-- An append drops the redo branch, and then the oldest snapshot if there is no room. -/
theorem Valid.append_retained {h : History} (hv : h.Valid) (s : Snapshot) :
    (h.append s).1.retained.toList = h.kept ++ [s] := by
  unfold append kept
  simp only [Array.toList_push]
  congr 1
  by_cases hf : h.dropAhead.capacity ≤ h.dropAhead.size
  · have ho : h.overflows = true := hv.full_iff.mp hf
    rw [if_pos (by simpa using hf), if_pos ho, toList_drop, hv.dropAhead_retained]
  · have ho : ¬h.overflows = true := fun ho => hf (hv.full_iff.mpr ho)
    rw [if_neg (by simpa using hf), if_neg ho, hv.dropAhead_retained]

theorem Valid.append_size {h : History} (hv : h.Valid) (s : Snapshot) :
    (h.append s).1.size = h.kept.length + 1 := by
  show (h.append s).1.retained.toList.length = h.kept.length + 1
  rw [hv.append_retained, List.length_append, List.length_singleton]

theorem Valid.append_cursor {h : History} (hv : h.Valid) (s : Snapshot) :
    (h.append s).1.cursor = some h.kept.length := by
  have hcursor : (h.append s).1.cursor = some ((h.append s).1.size - 1) := by
    simp [append, size]
  rw [hcursor, hv.append_size, Nat.add_sub_cancel]

theorem append_capacity (h : History) (s : Snapshot) : (h.append s).1.capacity = h.capacity := by
  show h.dropAhead.capacity = h.capacity
  exact h.dropAhead_capacity

theorem append_interval (h : History) (s : Snapshot) : (h.append s).1.interval = h.interval := by
  show h.dropAhead.interval = h.interval
  unfold dropAhead
  split <;> rfl

theorem append_captures (h : History) (s : Snapshot) : (h.append s).1.captures = h.captures := by
  show h.dropAhead.captures = h.captures
  exact h.dropAhead_captures

/-- The first append that evicts announces it, and so it is remembered. -/
theorem Valid.append_limitShown {h : History} (hv : h.Valid) (s : Snapshot) :
    (h.append s).1.limitShown = (h.limitShown || h.overflows) := by
  have hfull : decide (h.dropAhead.capacity ≤ h.dropAhead.size) = h.overflows := by
    rw [Bool.eq_iff_iff, decide_eq_true_iff]
    exact hv.full_iff
  show (h.dropAhead.limitShown || decide (h.dropAhead.capacity ≤ h.dropAhead.size)) = _
  rw [hfull, dropAhead_limitShown]

/-- There is room for one snapshot more next to those that are kept. -/
theorem Valid.length_kept_lt {h : History} (hv : h.Valid) : h.kept.length < h.capacity := by
  have hpos := hv.capacity_pos
  have hsize := hv.size_le
  unfold kept
  by_cases ho : h.overflows = true
  · obtain ⟨i, hc, hi⟩ := exists_cursor_of_overflows ho
    rw [if_pos ho, List.length_drop, hv.length_behind, hc]
    show i + 1 - 1 < h.capacity
    omega
  · rw [if_neg ho, hv.length_behind]
    cases hc : h.cursor with
    | none => exact hpos
    | some i =>
      have hi := hv.cursor_lt i hc
      have hne : i + 1 ≠ h.capacity := by
        intro he
        apply ho
        simp [overflows, hc, he]
      show i + 1 < h.capacity
      omega

theorem Valid.append_current {h : History} (hv : h.Valid) (s : Snapshot) :
    (h.append s).1.current? = some s := by
  unfold current?
  rw [hv.append_cursor]
  show (h.append s).1.retained[h.kept.length]? = some s
  rw [← Array.getElem?_toList, hv.append_retained]
  simp

theorem Valid.append {h : History} (hv : h.Valid) (s : Snapshot) : (h.append s).1.Valid := by
  refine ⟨?_, ?_, ?_, ?_⟩
  · rw [append_capacity]
    exact hv.capacity_pos
  · rw [append_capacity, hv.append_size]
    exact hv.length_kept_lt
  · intro hc
    rw [hv.append_cursor] at hc
    cases hc
  · intro i hc
    rw [hv.append_cursor] at hc
    injection hc with hi
    rw [hv.append_size]
    omega

/-! ## Captures -/

/-- The snapshot that a capture makes of a probe at a position. -/
def shown (h : History) (probe : Probe) (position : Position) : Snapshot :=
  ⟨position, probe.scopes, probe.frames,
    if h.captures % h.interval = 0 then probe.serialized else none⟩

theorem capture_of_no_position (h : History) {probe : Probe} (hp : probe.position = none) :
    h.capture (some probe) = (h, none, none) := by
  simp only [capture, hp]

/-- A capture at a position is counted, and appends what the probe shows. -/
theorem capture_of_position (h : History) {probe : Probe} {position : Position}
    (hp : probe.position = some position) :
    h.capture (some probe)
      = (({ h with captures := h.captures + 1 }.append (h.shown probe position)).1,
          ({ h with captures := h.captures + 1 }.append (h.shown probe position)).2,
          some (h.shown probe position)) := by
  simp only [capture, hp]
  rfl

theorem Valid.withCaptures {h : History} (hv : h.Valid) (n : Nat) :
    { h with captures := n }.Valid :=
  ⟨hv.capacity_pos, hv.size_le, hv.empty_of_cursor, hv.cursor_lt⟩

/-! ## Navigation -/

/-- The cursor can move back exactly from a place that is not the first. -/
theorem canStepBack_iff {h : History} : h.canStepBack = true ↔ ∃ i, h.cursor = some (i + 1) := by
  unfold canStepBack
  cases hc : h.cursor with
  | none => simp
  | some i =>
    simp only [Option.any_some, decide_eq_true_eq, Option.some.injEq]
    constructor
    · intro hi
      exact ⟨i - 1, by omega⟩
    · intro hi
      obtain ⟨k, hk⟩ := hi
      omega

theorem canStepForward_iff {h : History} :
    h.canStepForward = true ↔ ∃ i, h.cursor = some i ∧ i + 1 < h.size := by
  unfold canStepForward
  cases hc : h.cursor with
  | none => simp
  | some i => simp

theorem stepBack_of_not {h : History} (hn : h.canStepBack = false) : h.stepBack = (h, none) := by
  simp [stepBack, hn]

theorem stepForward_of_not {h : History} (hn : h.canStepForward = false) :
    h.stepForward = (h, none) := by
  simp [stepForward, hn]

theorem stepBack_of_cursor {h : History} {i : Nat} (hc : h.cursor = some (i + 1)) :
    h.stepBack = ({ h with cursor := some i }, h.retained[i]?) := by
  have hcan : h.canStepBack = true := canStepBack_iff.mpr ⟨i, hc⟩
  simp [stepBack, hcan, hc, current?]

theorem stepForward_of_cursor {h : History} {i : Nat} (hc : h.cursor = some i) (hi : i + 1 < h.size) :
    h.stepForward = ({ h with cursor := some (i + 1) }, h.retained[i + 1]?) := by
  have hcan : h.canStepForward = true := canStepForward_iff.mpr ⟨i, hc, hi⟩
  simp [stepForward, hcan, hc, current?]

theorem stepBack_fst (h : History) : h.stepBack.1 = { h with cursor := h.stepBack.1.cursor } := by
  unfold stepBack
  split <;> rfl

theorem stepForward_fst (h : History) :
    h.stepForward.1 = { h with cursor := h.stepForward.1.cursor } := by
  unfold stepForward
  split <;> rfl

theorem isSome_of_lt_size {h : History} {i : Nat} (hi : i < h.size) :
    h.retained[i]?.isSome = true := by
  rw [Array.getElem?_eq_getElem hi]
  rfl

/-- A move succeeds exactly if the test for it holds. -/
theorem Valid.stepBack_isSome {h : History} (hv : h.Valid) :
    h.stepBack.2.isSome = h.canStepBack := by
  cases hcan : h.canStepBack with
  | false => rw [stepBack_of_not hcan]; rfl
  | true =>
    obtain ⟨i, hc⟩ := canStepBack_iff.mp hcan
    have hi := hv.cursor_lt (i + 1) hc
    rw [stepBack_of_cursor hc]
    exact isSome_of_lt_size (by omega)

theorem stepForward_isSome {h : History} : h.stepForward.2.isSome = h.canStepForward := by
  cases hcan : h.canStepForward with
  | false => rw [stepForward_of_not hcan]; rfl
  | true =>
    obtain ⟨i, hc, hi⟩ := canStepForward_iff.mp hcan
    rw [stepForward_of_cursor hc hi]
    exact isSome_of_lt_size hi

/-- Moving the cursor to another snapshot that is there keeps the invariant. -/
theorem Valid.withCursor {h : History} (hv : h.Valid) {i : Nat} (hi : i < h.size) :
    { h with cursor := some i }.Valid where
  capacity_pos := hv.capacity_pos
  size_le := hv.size_le
  empty_of_cursor hc := by cases hc
  cursor_lt j hc := by
    have hij : some i = some j := hc
    injection hij with hij
    rw [← hij]
    exact hi

theorem Valid.stepBack {h : History} (hv : h.Valid) : h.stepBack.1.Valid := by
  cases hcan : h.canStepBack with
  | false =>
    rw [stepBack_of_not hcan]
    exact hv
  | true =>
    obtain ⟨i, hc⟩ := canStepBack_iff.mp hcan
    have hi := hv.cursor_lt (i + 1) hc
    rw [stepBack_of_cursor hc]
    exact hv.withCursor (by omega)

theorem Valid.stepForward {h : History} (hv : h.Valid) : h.stepForward.1.Valid := by
  cases hcan : h.canStepForward with
  | false =>
    rw [stepForward_of_not hcan]
    exact hv
  | true =>
    obtain ⟨i, hc, hi⟩ := canStepForward_iff.mp hcan
    rw [stepForward_of_cursor hc hi]
    exact hv.withCursor hi

/-! ## At the last snapshot -/

/-- If the cursor cannot go forward, the size of a history tells where it is. -/
theorem Valid.cursor_of_end {h : History} (hv : h.Valid) (hend : h.canStepForward = false) :
    h.cursor = if h.size = 0 then none else some (h.size - 1) := by
  cases hc : h.cursor with
  | none => rw [if_pos (hv.empty_of_cursor hc)]
  | some i =>
    have hlt := hv.cursor_lt i hc
    have hlast : ¬ i + 1 < h.size := fun hless =>
      Bool.false_ne_true (hend.symm.trans (canStepForward_iff.mpr ⟨i, hc, hless⟩))
    rw [if_neg (by omega), show h.size - 1 = i by omega]

/-- With the cursor on the last snapshot all snapshots are up to the cursor. -/
theorem Valid.behind_of_last {h : History} (hv : h.Valid) (hend : h.canStepForward = false) :
    h.behind = h.retained.toList := by
  have hsize : h.cursor.elim 0 (· + 1) = h.size := by
    rw [hv.cursor_of_end hend]
    split
    · rename_i hempty
      exact hempty.symm
    · show h.size - 1 + 1 = h.size
      omega
  unfold behind
  rw [hsize]
  exact List.take_length

/-- With the cursor on the last snapshot nothing is dropped but the oldest snapshot, if there is no room
for one more. -/
theorem Valid.append_retained_last {h : History} (hv : h.Valid) (hend : h.canStepForward = false)
    (s : Snapshot) : (h.append s).1.retained.toList
      = (if h.size = h.capacity then h.retained.toList.drop 1 else h.retained.toList) ++ [s] := by
  have hpos := hv.capacity_pos
  have hbehind := hv.behind_of_last hend
  have hfull : h.overflows = true ↔ h.size = h.capacity := by
    unfold overflows
    rw [hv.cursor_of_end hend]
    split
    · simp
      omega
    · simp
      omega
  rw [hv.append_retained]
  unfold kept
  simp only [hbehind, hfull]

/-- After an append the cursor is on the last snapshot. -/
theorem Valid.append_last {h : History} (hv : h.Valid) (s : Snapshot) :
    (h.append s).1.canStepForward = false := by
  unfold canStepForward
  rw [hv.append_cursor, hv.append_size]
  simp

/-- So it grows by one until there is no more room. -/
theorem Valid.append_size_last {h : History} (hv : h.Valid) (hend : h.canStepForward = false)
    (s : Snapshot) : (h.append s).1.size = if h.size = h.capacity then h.size else h.size + 1 := by
  have hpos := hv.capacity_pos
  have hlength : h.retained.toList.length = h.size := rfl
  show (h.append s).1.retained.toList.length = _
  rw [hv.append_retained_last hend, List.length_append, List.length_singleton]
  split
  · rw [List.length_drop, hlength]
    omega
  · rw [hlength]

end History

end Retrace
