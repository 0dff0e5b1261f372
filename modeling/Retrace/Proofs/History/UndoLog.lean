import Retrace.Proofs.History.Basic
/-!
# A history is the tail of an undo log

An undo log never forgets its beginning: an append drops what lies after the cursor and adds at the
end, and the cursor moves freely. A bounded history follows such a log as long as the log is not asked
for what was evicted. `ShadowedHistory` runs the two side by side and collects what was evicted. Whether
a capture appends to the log is told by the probe, and not by what the history makes of it: what a probe
with a position shows is appended. Of the moves of its cursor the log makes those that succeed on the
history. The relation between the three is

> `Follows`: the log is the evicted snapshots and then the retained ones, and its cursor is the
> history's, counted from the front of the log.

An eviction lets the evicted part grow by the snapshot that the retained part loses, and shifts the
history's cursor by one against the log's; every other move leaves the evicted part alone. Since the
evicted snapshots lie before the cursor, no append drops one of them from the log.
-/

namespace Retrace

/-- A log of snapshots with a cursor on one of them. -/
structure UndoLog where
  entries : List Snapshot
  cursor : Option Nat

namespace UndoLog

/-- The log with no snapshots. -/
def empty : UndoLog := ⟨[], none⟩

/-- Drops what lies after the cursor, adds a snapshot and moves the cursor onto it. -/
def append (l : UndoLog) (s : Snapshot) : UndoLog :=
  let kept := l.entries.take (l.cursor.elim 0 (· + 1))
  ⟨kept ++ [s], some kept.length⟩

/-- Moves the cursor one snapshot back, but not beyond the first. -/
def back (l : UndoLog) : UndoLog := { l with cursor := l.cursor.map (· - 1) }

/-- Moves the cursor one snapshot forward, but not beyond the last. -/
def forward (l : UndoLog) : UndoLog :=
  { l with cursor := l.cursor.map fun i => if i + 1 < l.entries.length then i + 1 else i }

/-- The snapshot under the cursor. -/
def current? (l : UndoLog) : Option Snapshot := l.cursor.bind fun i => l.entries[i]?

end UndoLog

/-- What is done to a history. -/
inductive HistoryOperation where
  | append (s : Snapshot)
  | capture (probe : Option Probe)
  | back
  | forward
  | clear

namespace History

/-- The snapshots that an append takes away besides the redo branch: the oldest, as many as the size
is short of one more than before. -/
def evictedBy (h : History) (s : Snapshot) : List Snapshot :=
  h.dropAhead.retained.toList.take (h.dropAhead.size + 1 - (h.append s).1.size)

end History

/-- A history beside the undo log it follows, with the snapshots evicted since the last clear, oldest
first. -/
structure ShadowedHistory where
  history : History
  log : UndoLog
  evicted : List Snapshot

namespace ShadowedHistory

/-- Nothing done yet. -/
def new (config : HistoryConfig) : ShadowedHistory := ⟨.empty config, .empty, []⟩

/-- Does something to the history, and the same to the log unless it is a move that fails on the
history. A probe without a position shows nothing to be captured. -/
def perform (x : ShadowedHistory) : HistoryOperation → ShadowedHistory
  | .append s => ⟨(x.history.append s).1, x.log.append s, x.evicted ++ x.history.evictedBy s⟩
  | .capture probe =>
    let h := (x.history.capture probe).1
    match probe.bind fun p => p.position.map (x.history.shown p) with
    | some s => ⟨h, x.log.append s, x.evicted ++ x.history.evictedBy s⟩
    | none => { x with history := h }
  | .back =>
    match x.history.stepBack with
    | (h, some _) => { x with history := h, log := x.log.back }
    | (h, none) => { x with history := h }
  | .forward =>
    match x.history.stepForward with
    | (h, some _) => { x with history := h, log := x.log.forward }
    | (h, none) => { x with history := h }
  | .clear => ⟨x.history.clear, .empty, []⟩

/-- Does several things one after the other. -/
def run (x : ShadowedHistory) (ops : List HistoryOperation) : ShadowedHistory := ops.foldl perform x

end ShadowedHistory

/-! ## What an append evicts -/

namespace History

/-- An append evicts the oldest snapshot up to the cursor if the history overflows. -/
theorem Valid.evictedBy_eq {h : History} (hv : h.Valid) (s : Snapshot) :
    h.evictedBy s = if h.overflows then h.behind.take 1 else [] := by
  have hdrop : h.dropAhead.size = h.behind.length := by
    rw [← hv.dropAhead_retained]
    rfl
  unfold evictedBy
  rw [hv.append_size, hdrop, hv.dropAhead_retained]
  unfold kept
  by_cases ho : h.overflows = true
  · have hpos : 0 < h.behind.length := by
      obtain ⟨i, hc, -⟩ := exists_cursor_of_overflows ho
      rw [hv.length_behind, hc]
      exact Nat.succ_pos i
    rw [if_pos ho, if_pos ho, List.length_drop]
    congr 1
    omega
  · rw [if_neg ho, if_neg ho]
    have hz : h.behind.length + 1 - (h.behind.length + 1) = 0 := by omega
    rw [hz, List.take_zero]

/-- What an append evicts and what it keeps are together the snapshots up to the cursor. -/
theorem Valid.evictedBy_append_kept {h : History} (hv : h.Valid) (s : Snapshot) :
    h.evictedBy s ++ h.kept = h.behind := by
  rw [hv.evictedBy_eq]
  unfold kept
  by_cases ho : h.overflows = true
  · rw [if_pos ho, if_pos ho, List.take_append_drop]
  · rw [if_neg ho, if_neg ho, List.nil_append]

theorem Valid.length_evictedBy {h : History} (hv : h.Valid) (s : Snapshot) :
    (h.evictedBy s).length = if h.overflows then 1 else 0 := by
  rw [hv.evictedBy_eq]
  by_cases ho : h.overflows = true
  · obtain ⟨i, hc, -⟩ := exists_cursor_of_overflows ho
    rw [if_pos ho, if_pos ho, List.length_take, hv.length_behind, hc]
    show min 1 (i + 1) = 1
    omega
  · rw [if_neg ho, if_neg ho]
    rfl

/-- An append evicts something exactly if the history overflows. -/
theorem Valid.evictedBy_ne_nil_iff {h : History} (hv : h.Valid) (s : Snapshot) :
    h.evictedBy s ≠ [] ↔ h.overflows = true := by
  rw [← List.length_pos_iff, hv.length_evictedBy]
  split
  next ho => exact ⟨fun _ => ho, fun _ => Nat.one_pos⟩
  next ho => exact ⟨nofun, fun he => absurd he ho⟩

/-- A valid history overflows exactly if its cursor is on its last snapshot and it is full. -/
theorem Valid.overflows_iff {h : History} (hv : h.Valid) :
    h.overflows = true ↔ h.cursor = some (h.size - 1) ∧ h.size = h.capacity := by
  have hsize := hv.size_le
  have hpos := hv.capacity_pos
  unfold overflows
  cases hc : h.cursor with
  | none => simp
  | some i =>
    have hi := hv.cursor_lt i hc
    simp only [Option.map_some, beq_iff_eq, Option.some.injEq]
    omega

end History

/-! ## The relation -/

namespace ShadowedHistory

/-- The relation between a history, its log and what was evicted. -/
structure Follows (x : ShadowedHistory) : Prop where
  valid : x.history.Valid
  entries_eq : x.log.entries = x.evicted ++ x.history.retained.toList
  cursor_eq : x.log.cursor = x.history.cursor.map (x.evicted.length + ·)
  /-- Nothing is evicted before the first append. -/
  evicted_eq_nil : x.history.cursor = none → x.evicted = []

theorem follows_new (config : HistoryConfig) : (new config).Follows where
  valid := History.valid_empty config
  entries_eq := rfl
  cursor_eq := rfl
  evicted_eq_nil _ := rfl

/-- What an append leaves of the log: all that was evicted, and what lies up to the cursor. -/
theorem Follows.log_kept {x : ShadowedHistory} (hx : x.Follows) :
    x.log.entries.take (x.log.cursor.elim 0 (· + 1)) = x.evicted ++ x.history.behind := by
  rw [hx.cursor_eq, hx.entries_eq]
  unfold History.behind
  cases hc : x.history.cursor with
  | none => rw [hx.evicted_eq_nil hc]; rfl
  | some i =>
    show List.take (x.evicted.length + i + 1) (x.evicted ++ x.history.retained.toList)
      = x.evicted ++ List.take (i + 1) x.history.retained.toList
    rw [Nat.add_assoc, List.take_length_add_append]

/-- An append on both sides keeps the relation: the evicted part takes over what the retained part
loses. -/
theorem Follows.append {x : ShadowedHistory} (hx : x.Follows) (s : Snapshot) :
    (x.perform (.append s)).Follows := by
  have hparts := hx.valid.evictedBy_append_kept s
  -- what the log keeps ends in what the history keeps
  have hlog : x.log.entries.take (x.log.cursor.elim 0 (· + 1))
      = (x.evicted ++ x.history.evictedBy s) ++ x.history.kept := by
    rw [hx.log_kept, List.append_assoc, hparts]
  refine ⟨hx.valid.append s, ?_, ?_, ?_⟩
  · show x.log.entries.take (x.log.cursor.elim 0 (· + 1)) ++ [s]
      = x.evicted ++ x.history.evictedBy s ++ (x.history.append s).1.retained.toList
    rw [hlog, hx.valid.append_retained, List.append_assoc]
  · show some (x.log.entries.take (x.log.cursor.elim 0 (· + 1))).length
      = (x.history.append s).1.cursor.map ((x.evicted ++ x.history.evictedBy s).length + ·)
    rw [hlog, hx.valid.append_cursor, List.length_append]
    rfl
  · intro hc
    have hc : (x.history.append s).1.cursor = none := hc
    rw [hx.valid.append_cursor] at hc
    cases hc

theorem evictedBy_withCaptures (h : History) (n : Nat) (s : Snapshot) :
    { h with captures := n }.evictedBy s = h.evictedBy s := by
  have hdrop : { h with captures := n }.dropAhead = { h.dropAhead with captures := n } := by
    rcases h with ⟨_, cursor, _, _, _, _⟩
    cases cursor <;> rfl
  have hsize : ({ h with captures := n }.append s).1.size = (h.append s).1.size := by
    unfold History.append
    rw [hdrop]
    rfl
  unfold History.evictedBy
  rw [hsize, hdrop]
  rfl

theorem Follows.withCaptures {x : ShadowedHistory} (hx : x.Follows) (n : Nat) :
    { x with history := { x.history with captures := n } }.Follows :=
  ⟨hx.valid.withCaptures n, hx.entries_eq, hx.cursor_eq, hx.evicted_eq_nil⟩

/-- A capture is no more than an append of what the probe shows, if it shows a position. -/
theorem perform_capture (x : ShadowedHistory) (probe : Option Probe) :
    x.perform (.capture probe) = x ∨
      ∃ s, x.perform (.capture probe)
        = { x with history := { x.history with captures := x.history.captures + 1 } }.perform
            (.append s) := by
  cases probe with
  | none => exact Or.inl rfl
  | some probe =>
    cases hp : probe.position with
    | none =>
      left
      simp only [perform, x.history.capture_of_no_position hp, Option.bind_some, hp, Option.map_none]
    | some position =>
      right
      refine ⟨x.history.shown probe position, ?_⟩
      simp only [perform, x.history.capture_of_position hp, Option.bind_some, hp, Option.map_some,
        evictedBy_withCaptures]

/-- A successful move back is made by the log as well; any other changes nothing. -/
theorem Follows.back {x : ShadowedHistory} (hx : x.Follows) : (x.perform .back).Follows := by
  have hvalid := hx.valid.stepBack
  cases hcan : x.history.canStepBack with
  | false =>
    have hmove := History.stepBack_of_not hcan
    simp only [perform, hmove]
    exact hx
  | true =>
    obtain ⟨i, hc⟩ := History.canStepBack_iff.mp hcan
    have hi : i < x.history.size := by
      have := hx.valid.cursor_lt (i + 1) hc
      omega
    have hmove := History.stepBack_of_cursor hc
    have hget : x.history.retained[i]? = some x.history.retained[i] :=
      Array.getElem?_eq_getElem hi
    rw [hmove] at hvalid
    rw [hget] at hmove
    simp only [perform, hmove]
    refine ⟨hvalid, hx.entries_eq, ?_, ?_⟩
    · show x.log.cursor.map (· - 1) = some (x.evicted.length + i)
      rw [hx.cursor_eq, hc]
      rfl
    · intro hn
      cases hn

theorem Follows.forward {x : ShadowedHistory} (hx : x.Follows) : (x.perform .forward).Follows := by
  have hvalid := hx.valid.stepForward
  cases hcan : x.history.canStepForward with
  | false =>
    have hmove := History.stepForward_of_not hcan
    simp only [perform, hmove]
    exact hx
  | true =>
    obtain ⟨i, hc, hi⟩ := History.canStepForward_iff.mp hcan
    have hmove := History.stepForward_of_cursor hc hi
    have hget : x.history.retained[i + 1]? = some x.history.retained[i + 1] :=
      Array.getElem?_eq_getElem hi
    rw [hmove] at hvalid
    rw [hget] at hmove
    simp only [perform, hmove]
    refine ⟨hvalid, hx.entries_eq, ?_, ?_⟩
    · -- the log has a next snapshot because the history has one
      have hlen : x.evicted.length + i + 1 < x.log.entries.length := by
        rw [hx.entries_eq, List.length_append, Array.length_toList]
        have : i + 1 < x.history.retained.size := hi
        omega
      show (x.log.cursor.map fun j => if j + 1 < x.log.entries.length then j + 1 else j)
        = some (x.evicted.length + (i + 1))
      rw [hx.cursor_eq, hc]
      show some (if x.evicted.length + i + 1 < x.log.entries.length then x.evicted.length + i + 1
        else x.evicted.length + i) = some (x.evicted.length + (i + 1))
      rw [if_pos hlen]
      rfl
    · intro hn
      cases hn

theorem Follows.clear {x : ShadowedHistory} (hx : x.Follows) : (x.perform .clear).Follows where
  valid := hx.valid.clear
  entries_eq := rfl
  cursor_eq := rfl
  evicted_eq_nil _ := rfl

theorem Follows.perform {x : ShadowedHistory} (hx : x.Follows) (op : HistoryOperation) :
    (x.perform op).Follows := by
  cases op with
  | append s => exact hx.append s
  | capture probe =>
    rcases x.perform_capture probe with hsame | ⟨s, happend⟩
    · rw [hsame]
      exact hx
    · rw [happend]
      exact (hx.withCaptures _).append s
  | back => exact hx.back
  | forward => exact hx.forward
  | clear => exact hx.clear

theorem Follows.run {x : ShadowedHistory} (hx : x.Follows) (ops : List HistoryOperation) :
    (x.run ops).Follows := by
  induction ops generalizing x with
  | nil => exact hx
  | cons op ops ih => exact ih (hx.perform op)

theorem perform_back_history (x : ShadowedHistory) :
    (x.perform .back).history = x.history.stepBack.1 := by
  rcases hmove : x.history.stepBack with ⟨h, _ | s⟩ <;> simp only [perform, hmove]

theorem perform_forward_history (x : ShadowedHistory) :
    (x.perform .forward).history = x.history.stepForward.1 := by
  rcases hmove : x.history.stepForward with ⟨h, _ | s⟩ <;> simp only [perform, hmove]

theorem perform_capacity (x : ShadowedHistory) (op : HistoryOperation) :
    (x.perform op).history.capacity = x.history.capacity := by
  cases op with
  | append s => exact x.history.append_capacity s
  | capture probe =>
    rcases x.perform_capture probe with hsame | ⟨s, happend⟩
    · rw [hsame]
    · rw [happend]
      exact History.append_capacity _ s
  | back => rw [perform_back_history, History.stepBack_fst]
  | forward => rw [perform_forward_history, History.stepForward_fst]
  | clear => rfl

theorem run_capacity (x : ShadowedHistory) (ops : List HistoryOperation) :
    (x.run ops).history.capacity = x.history.capacity := by
  induction ops generalizing x with
  | nil => rfl
  | cons op ops ih => exact (ih (x.perform op)).trans (x.perform_capacity op)

theorem Follows.current_eq {x : ShadowedHistory} (hx : x.Follows) :
    x.log.current? = x.history.current? := by
  unfold UndoLog.current? History.current?
  rw [hx.cursor_eq, hx.entries_eq]
  cases x.history.cursor with
  | none => rfl
  | some i =>
    show (x.evicted ++ x.history.retained.toList)[x.evicted.length + i]? = x.history.retained[i]?
    rw [List.getElem?_append_right (Nat.le_add_right _ _), Nat.add_sub_cancel_left,
      Array.getElem?_toList]

end ShadowedHistory

/-- **A history is the tail of an undo log.** Along every sequence of operations the log is what was
evicted since the last clear and then what is retained, with its cursor and its current snapshot those
of the history; the size stays within the capacity and the cursor within the size; the two tests tell
whether a move succeeds, and a move that does not changes nothing; and an append evicts at most one
snapshot, namely if the cursor is on the last snapshot of a full history. -/
theorem History.follows_undoLog (config : HistoryConfig) (ops : List HistoryOperation) :
    let x := (ShadowedHistory.new config).run ops
    let h := x.history
    let capacity := max config.maxHistory 1
    (x.log.entries = x.evicted ++ h.retained.toList
      ∧ x.log.cursor = h.cursor.map (x.evicted.length + ·)
      ∧ x.log.current? = h.current?)
    ∧ h.size ≤ capacity
    ∧ (h.cursor = none ↔ h.size = 0)
    ∧ (∀ i, h.cursor = some i → i < h.size)
    ∧ (h.canStepBack = true ↔ ∃ s, h.stepBack.2 = some s)
    ∧ (h.canStepForward = true ↔ ∃ s, h.stepForward.2 = some s)
    ∧ (h.stepBack.2 = none → h.stepBack.1 = h)
    ∧ (h.stepForward.2 = none → h.stepForward.1 = h)
    ∧ ∀ s, (h.evictedBy s).length ≤ 1
      ∧ ((h.evictedBy s).length = 1 ↔ h.cursor = some (h.size - 1) ∧ h.size = capacity) := by
  intro x h capacity
  have hx : x.Follows := (ShadowedHistory.follows_new config).run ops
  have hv : h.Valid := hx.valid
  have hcap : h.capacity = capacity := ShadowedHistory.run_capacity (.new config) ops
  refine ⟨⟨hx.entries_eq, hx.cursor_eq, hx.current_eq⟩, hcap ▸ hv.size_le, hv.cursor_eq_none_iff,
    hv.cursor_lt, ?_, ?_, ?_, ?_, fun s => ⟨?_, ?_⟩⟩
  · rw [← hv.stepBack_isSome, Option.isSome_iff_exists]
  · rw [← History.stepForward_isSome, Option.isSome_iff_exists]
  · intro hn
    have hcan : h.canStepBack = false := by rw [← hv.stepBack_isSome, hn]; rfl
    rw [History.stepBack_of_not hcan]
  · intro hn
    have hcan : h.canStepForward = false := by rw [← History.stepForward_isSome, hn]; rfl
    rw [History.stepForward_of_not hcan]
  · rw [hv.length_evictedBy]
    split <;> omega
  · rw [hv.length_evictedBy, ← hcap, ← hv.overflows_iff]
    split
    next ho => exact ⟨fun _ => ho, fun _ => rfl⟩
    next ho => exact ⟨fun hz => absurd hz (by omega), fun hc => absurd hc ho⟩

end Retrace
