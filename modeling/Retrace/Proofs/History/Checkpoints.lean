import Mathlib.Tactic.ByContra
import Retrace.Proofs.History.UndoLog
/-!
# How far apart checkpoints lie

Every `interval`-th capture carries a checkpoint. As long as captures stay where they were put, this
leaves no gap among the retained snapshots: evictions take them away at the front. But a capture after a
step back drops the redo branch, and with it the checkpoints in there, while the count of the captures
goes on as if they were still retained. So the gap that is left may be longer, by `interval - 1` snapshots
for each checkpoint lost in this way.

`TalliedHistory` counts the checkpoints lost beside the history. `Spaced` bounds the snapshots without a
checkpoint in a row, anywhere (`gap`) and at the end (`tail`); a capture keeps both (`Spaced.capture`). The
bound grows with what is lost, and it must: with enough steps back the gap becomes as long as one likes
(`exists_gap`).
-/

namespace Retrace

namespace History

/-- The snapshots ahead of the cursor, a redo branch. -/
def ahead (h : History) : List Snapshot := h.retained.toList.drop (h.cursor.elim 0 (· + 1))

/-- The history after an operation. -/
def perform (h : History) : HistoryOperation → History
  | .append s => (h.append s).1
  | .capture probe => (h.capture probe).1
  | .back => h.stepBack.1
  | .forward => h.stepForward.1
  | .clear => h.clear

/-- The redo branch that an operation drops. -/
def dropped (h : History) : HistoryOperation → List Snapshot
  | .append _ => h.ahead
  | .capture probe => if (probe.bind Probe.position).isSome then h.ahead else []
  | _ => []

theorem behind_append_ahead (h : History) : h.behind ++ h.ahead = h.retained.toList :=
  List.take_append_drop _ _

theorem kept_suffix (h : History) : h.kept <:+ h.behind := by
  unfold kept
  split
  · exact List.drop_suffix 1 h.behind
  · exact List.suffix_rfl

theorem kept_infix (h : History) : h.kept <:+: h.retained.toList :=
  h.kept_suffix.isInfix.trans (List.take_prefix _ _).isInfix

/-- With the cursor on the last snapshot there is nothing ahead. -/
theorem Valid.ahead_eq_nil {h : History} (hv : h.Valid) (hend : h.canStepForward = false) :
    h.ahead = [] := by
  have hlength : h.retained.toList.length = h.size := rfl
  unfold ahead
  rw [hv.cursor_of_end hend, List.drop_eq_nil_iff]
  split
  · show h.retained.toList.length ≤ 0
    omega
  · show h.retained.toList.length ≤ h.size - 1 + 1
    omega

end History

/-- Whether an operation leaves it to the count of captures which snapshots carry a checkpoint: nothing is
put into the history but what a probe shows, and a probe that shows a position can be saved. -/
def HistoryOperation.saves : HistoryOperation → Bool
  | .append _ => false
  | .capture probe => probe.all fun p => p.position.isNone || p.serialized.isSome
  | _ => true

/-- A history, and the number of checkpoints it lost with redo branches since the last clear. -/
structure TalliedHistory where
  history : History
  lost : Nat

namespace TalliedHistory

/-- Nothing done yet. -/
def new (config : HistoryConfig) : TalliedHistory := ⟨.empty config, 0⟩

def perform (x : TalliedHistory) (op : HistoryOperation) : TalliedHistory where
  history := x.history.perform op
  lost :=
    match op with
    | .clear => 0
    | op => x.lost + (x.history.dropped op).countP Snapshot.hasCheckpoint

/-- Does several things one after the other. -/
def run (x : TalliedHistory) (ops : List HistoryOperation) : TalliedHistory := ops.foldl perform x

/-- No snapshot of a list carries a checkpoint. -/
def Unsaved (w : List Snapshot) : Prop := ∀ s ∈ w, s.hasCheckpoint = false

/-- The snapshots in a row without a checkpoint are bounded, wherever they are and at the end. -/
structure Spaced (x : TalliedHistory) : Prop where
  valid : x.history.Valid
  interval_pos : 0 < x.history.interval
  gap : ∀ w, w <:+: x.history.retained.toList → Unsaved w →
    w.length ≤ (x.history.interval - 1) * (x.lost + 1)
  /-- The captures since the last checkpoint, and what was lost before. -/
  tail : ∀ w, w <:+ x.history.retained.toList → Unsaved w →
    w.length ≤ (x.history.captures - 1) % x.history.interval + (x.history.interval - 1) * x.lost

section Spaced

variable {x : TalliedHistory}

/-- Nothing is retained, so there is no gap. -/
theorem spaced_of_nothing {h : History} {lost : Nat} (hv : h.Valid) (hpos : 0 < h.interval)
    (hnone : h.retained.toList = []) : Spaced ⟨h, lost⟩ := by
  refine ⟨hv, hpos, ?_, ?_⟩
  · intro w hw _
    have hw : w <:+: h.retained.toList := hw
    rw [hnone, List.infix_nil] at hw
    rw [hw]
    exact Nat.zero_le _
  · intro w hw _
    have hw : w <:+ h.retained.toList := hw
    rw [hnone, List.suffix_nil] at hw
    rw [hw]
    exact Nat.zero_le _

theorem spaced_new (config : HistoryConfig) : (new config).Spaced := by
  refine spaced_of_nothing (History.valid_empty config) ?_ rfl
  show 0 < max config.checkpointInterval 1
  omega

/-- At the end of what an append keeps the bound takes in the checkpoints that the append loses. If it
loses none, the redo branch would have gone on with the gap. -/
theorem Spaced.tail_kept (hx : x.Spaced) {w : List Snapshot} (hw : w <:+ x.history.kept)
    (hunsaved : Unsaved w) :
    w.length ≤ (x.history.captures - 1) % x.history.interval
      + (x.history.interval - 1) * (x.lost + x.history.ahead.countP Snapshot.hasCheckpoint) := by
  rcases Nat.eq_zero_or_pos (x.history.ahead.countP Snapshot.hasCheckpoint) with hnone | hsome
  · -- the gap with the redo branch behind it is one at the end of the history
    have hahead : Unsaved x.history.ahead := by
      intro s hs
      simpa using List.countP_eq_zero.mp hnone s hs
    obtain ⟨front, hfront⟩ := hw.trans x.history.kept_suffix
    have hsuffix : w ++ x.history.ahead <:+ x.history.retained.toList := by
      refine ⟨front, ?_⟩
      rw [← List.append_assoc, hfront, x.history.behind_append_ahead]
    have hboth : Unsaved (w ++ x.history.ahead) := by
      intro s hs
      rcases List.mem_append.mp hs with hs | hs
      · exact hunsaved s hs
      · exact hahead s hs
    have hlength := hx.tail _ hsuffix hboth
    rw [List.length_append] at hlength
    rw [hnone, Nat.add_zero]
    omega
  · have hlength := hx.gap w (hw.isInfix.trans x.history.kept_infix) hunsaved
    have hmore : (x.history.interval - 1) * (x.lost + 1)
        ≤ (x.history.interval - 1) * (x.lost + x.history.ahead.countP Snapshot.hasCheckpoint) :=
      Nat.mul_le_mul_left _ (by omega)
    omega

/-- The count of the captures goes on by one up to the next checkpoint. -/
theorem pred_mod_add_one {captures interval : Nat} (hpos : 0 < interval)
    (h : captures % interval ≠ 0) : (captures - 1) % interval + 1 = captures % interval := by
  have hcaptures : captures ≠ 0 := by
    intro he
    rw [he, Nat.zero_mod] at h
    exact h rfl
  obtain ⟨n, rfl⟩ := Nat.exists_eq_succ_of_ne_zero hcaptures
  have hlt := Nat.mod_lt n hpos
  have hsum : (n + 1) % interval = (n % interval + 1) % interval := by rw [Nat.mod_add_mod]
  show n % interval + 1 = (n + 1) % interval
  rcases Nat.lt_or_eq_of_le (Nat.succ_le_of_lt hlt) with hless | hwhole
  · rw [hsum, Nat.mod_eq_of_lt hless]
  · exfalso
    apply h
    have hwhole : n % interval + 1 = interval := hwhole
    show (n + 1) % interval = 0
    rw [hsum, hwhole, Nat.mod_self]

/-- A capture keeps the bounds if it carries a checkpoint when the count says so. -/
theorem Spaced.capture (hx : x.Spaced) {s : Snapshot}
    (hs : x.history.captures % x.history.interval = 0 → s.hasCheckpoint = true) :
    Spaced ⟨({ x.history with captures := x.history.captures + 1 }.append s).1,
      x.lost + x.history.ahead.countP Snapshot.hasCheckpoint⟩ := by
  have hcounted := hx.valid.withCaptures (x.history.captures + 1)
  have hretained := hcounted.append_retained s
  have hinterval := History.append_interval { x.history with captures := x.history.captures + 1 } s
  have hcaptures := History.append_captures { x.history with captures := x.history.captures + 1 } s
  have hvalid := hcounted.append s
  generalize ({ x.history with captures := x.history.captures + 1 }.append s).1 = h'
    at hretained hinterval hcaptures hvalid ⊢
  have hretained : h'.retained.toList = x.history.kept ++ [s] := hretained
  have hinterval : h'.interval = x.history.interval := hinterval
  have hcaptures : h'.captures = x.history.captures + 1 := hcaptures
  have hpos := hx.interval_pos
  have hkept := fun w hw hunsaved => hx.tail_kept (w := w) hw hunsaved
  have hgap := hx.gap
  generalize x.history.ahead.countP Snapshot.hasCheckpoint = losses at hkept ⊢
  have htail : ∀ w, w <:+ x.history.kept ++ [s] → Unsaved w →
      w.length ≤ x.history.captures % x.history.interval
        + (x.history.interval - 1) * (x.lost + losses) := by
    intro w hw hunsaved
    rcases List.suffix_concat_iff.mp hw with rfl | ⟨v, rfl, hv⟩
    · exact Nat.zero_le _
    · -- the new snapshot carries no checkpoint, so the count is between two of them
      have hnot : x.history.captures % x.history.interval ≠ 0 := by
        intro hdue
        have hbare := hunsaved s (List.mem_append_right v List.mem_cons_self)
        rw [hs hdue] at hbare
        cases hbare
      have hnext := pred_mod_add_one hpos hnot
      have hlength := hkept v hv fun r hr => hunsaved r (List.mem_append_left [s] hr)
      rw [List.length_append, List.length_singleton]
      omega
  refine ⟨hvalid, by rw [hinterval]; exact hpos, ?_, ?_⟩
  · show ∀ w, w <:+: h'.retained.toList → Unsaved w →
      w.length ≤ (h'.interval - 1) * (x.lost + losses + 1)
    rw [hretained, hinterval]
    intro w hw hunsaved
    rcases List.infix_concat_iff.mp hw with hend | hold
    · have hlength := htail w hend hunsaved
      have hlt := Nat.mod_lt x.history.captures hpos
      rw [Nat.mul_succ]
      omega
    · have hlength := hgap w (hold.trans x.history.kept_infix) hunsaved
      have hmore : (x.history.interval - 1) * (x.lost + 1)
          ≤ (x.history.interval - 1) * (x.lost + losses + 1) :=
        Nat.mul_le_mul_left _ (by omega)
      omega
  · show ∀ w, w <:+ h'.retained.toList → Unsaved w →
      w.length ≤ (h'.captures - 1) % h'.interval + (h'.interval - 1) * (x.lost + losses)
    rw [hretained, hinterval, hcaptures, Nat.add_sub_cancel]
    exact htail

/-- Moving the cursor leaves the snapshots where they are. -/
theorem Spaced.withCursor (hx : x.Spaced) {cursor : Option Nat}
    (hv : { x.history with cursor := cursor }.Valid) :
    Spaced ⟨{ x.history with cursor := cursor }, x.lost⟩ :=
  ⟨hv, hx.interval_pos, hx.gap, hx.tail⟩

/-- A capture does nothing, or it appends what the probe shows. -/
theorem capture_cases (x : TalliedHistory) (probe : Option Probe) :
    x.perform (.capture probe) = x ∨
      ∃ p position, probe = some p ∧ p.position = some position ∧
        x.perform (.capture probe)
          = ⟨({ x.history with captures := x.history.captures + 1 }.append
                (x.history.shown p position)).1,
              x.lost + x.history.ahead.countP Snapshot.hasCheckpoint⟩ := by
  unfold perform History.perform History.dropped
  cases probe with
  | none => exact Or.inl rfl
  | some p =>
    cases hp : p.position with
    | none =>
      left
      simp [x.history.capture_of_no_position hp, hp]
    | some position =>
      refine Or.inr ⟨p, position, rfl, hp, ?_⟩
      simp [x.history.capture_of_position hp, hp]

theorem Spaced.perform (hx : x.Spaced) {op : HistoryOperation} (hop : op.saves = true) :
    (x.perform op).Spaced := by
  cases op with
  | append s => cases hop
  | capture probe =>
    rcases x.capture_cases probe with hsame | ⟨p, position, rfl, hp, hcaptured⟩
    · rw [hsame]
      exact hx
    · have hsaved : p.serialized.isSome = true := by
        simpa [HistoryOperation.saves, hp] using hop
      rw [hcaptured]
      refine hx.capture ?_
      intro hdue
      show (if x.history.captures % x.history.interval = 0 then p.serialized else none).isSome = true
      rw [if_pos hdue]
      exact hsaved
  | back =>
    have hvalid := hx.valid.stepBack
    show Spaced ⟨x.history.stepBack.1, x.lost⟩
    rw [History.stepBack_fst] at hvalid ⊢
    exact hx.withCursor hvalid
  | forward =>
    have hvalid := hx.valid.stepForward
    show Spaced ⟨x.history.stepForward.1, x.lost⟩
    rw [History.stepForward_fst] at hvalid ⊢
    exact hx.withCursor hvalid
  | clear => exact spaced_of_nothing hx.valid.clear hx.interval_pos rfl

/-- The bounds hold after any operations. The induction is on the operations. -/
theorem Spaced.run (hx : x.Spaced) {ops : List HistoryOperation}
    (hops : ∀ op ∈ ops, op.saves = true) : (x.run ops).Spaced := by
  induction ops generalizing x with
  | nil => exact hx
  | cons op ops ih =>
    rw [List.forall_mem_cons] at hops
    exact ih (hx.perform hops.1) hops.2

theorem perform_interval (x : TalliedHistory) (op : HistoryOperation) :
    (x.perform op).history.interval = x.history.interval := by
  cases op with
  | append s => exact x.history.append_interval s
  | capture probe =>
    rcases x.capture_cases probe with hsame | ⟨p, position, rfl, hp, hcaptured⟩
    · rw [hsame]
    · rw [hcaptured]
      exact History.append_interval _ _
  | back =>
    show x.history.stepBack.1.interval = x.history.interval
    rw [History.stepBack_fst]
  | forward =>
    show x.history.stepForward.1.interval = x.history.interval
    rw [History.stepForward_fst]
  | clear => rfl

theorem run_interval (x : TalliedHistory) (ops : List HistoryOperation) :
    (x.run ops).history.interval = x.history.interval := by
  induction ops generalizing x with
  | nil => rfl
  | cons op ops ih => exact (ih (x.perform op)).trans (x.perform_interval op)

end Spaced

/-! ## Without a step back -/

/-- The cursor is on the last snapshot, and no checkpoint was lost. -/
structure Unrewound (x : TalliedHistory) : Prop where
  valid : x.history.Valid
  last : x.history.canStepForward = false
  lost : x.lost = 0

section Unrewound

variable {x : TalliedHistory}

/-- An append then drops nothing. -/
theorem Unrewound.append (hx : x.Unrewound) (n : Nat) (s : Snapshot) :
    Unrewound ⟨({ x.history with captures := n }.append s).1,
      x.lost + x.history.ahead.countP Snapshot.hasCheckpoint⟩ := by
  have hcounted := hx.valid.withCaptures n
  refine ⟨hcounted.append s, hcounted.append_last s, ?_⟩
  show x.lost + x.history.ahead.countP Snapshot.hasCheckpoint = 0
  rw [hx.valid.ahead_eq_nil hx.last, hx.lost]
  rfl

theorem Unrewound.perform (hx : x.Unrewound) {op : HistoryOperation} (hop : op ≠ .back) :
    (x.perform op).Unrewound := by
  cases op with
  | append s => exact hx.append x.history.captures s
  | capture probe =>
    rcases x.capture_cases probe with hsame | ⟨p, position, -, -, hcaptured⟩
    · rw [hsame]
      exact hx
    · rw [hcaptured]
      exact hx.append _ _
  | back => exact absurd rfl hop
  | forward =>
    show Unrewound ⟨x.history.stepForward.1, x.lost⟩
    rw [History.stepForward_of_not hx.last]
    exact hx
  | clear => exact ⟨hx.valid.clear, rfl, rfl⟩

theorem Unrewound.run (hx : x.Unrewound) {ops : List HistoryOperation} (hops : .back ∉ ops) :
    (x.run ops).Unrewound := by
  induction ops generalizing x with
  | nil => exact hx
  | cons op ops ih =>
    rw [List.mem_cons, not_or] at hops
    exact ih (hx.perform fun he => hops.1 he.symm) hops.2

end Unrewound

end TalliedHistory

open TalliedHistory (Unsaved)

/-- Take any bounds, a zero counting as one, and any captures of probes that can be saved, steps back and
forth, and clears, in any order. Among the retained snapshots every stretch that is longer than
`interval - 1`, and longer by `interval - 1` again for each checkpoint lost with a redo branch since the
last clear, has a snapshot with a checkpoint. So if none was lost, as when there was no step back, any
`interval` snapshots in a row include one with a checkpoint, and from a snapshot with `interval - 1`
others before it there is one at most `interval - 1` entries back. -/
theorem checkpoints_bound_gaps (config : HistoryConfig) (ops : List HistoryOperation)
    (hsaves : ∀ op ∈ ops, op.saves = true) :
    let x := (TalliedHistory.new config).run ops
    let retained := x.history.retained.toList
    let interval := max config.checkpointInterval 1
    (∀ w, w <:+: retained → (interval - 1) * (x.lost + 1) < w.length →
      ∃ s ∈ w, s.hasCheckpoint = true)
    ∧ (x.lost = 0 →
        (∀ w, w <:+: retained → interval ≤ w.length → ∃ s ∈ w, s.hasCheckpoint = true)
        ∧ ∀ i, interval - 1 ≤ i → i < retained.length →
            ∃ j s, i - (interval - 1) ≤ j ∧ j ≤ i ∧ retained[j]? = some s ∧ s.hasCheckpoint = true)
    ∧ (.back ∉ ops → x.lost = 0) := by
  intro x retained interval
  have hspaced : x.Spaced := (TalliedHistory.spaced_new config).run hsaves
  have hinterval : x.history.interval = interval := TalliedHistory.run_interval _ ops
  have hpos : 0 < interval := by
    show 0 < max config.checkpointInterval 1
    omega
  have hany : ∀ w, w <:+: retained → (interval - 1) * (x.lost + 1) < w.length →
      ∃ s ∈ w, s.hasCheckpoint = true := by
    intro w hw hlong
    by_contra hnone
    have hunsaved : Unsaved w := by
      intro s hs
      rw [Bool.eq_false_iff]
      exact fun hsaved => hnone ⟨s, hs, hsaved⟩
    have hlength := hspaced.gap w hw hunsaved
    rw [hinterval] at hlength
    omega
  refine ⟨hany, ?_, ?_⟩
  · intro hlost
    rw [hlost, Nat.zero_add, Nat.mul_one] at hany
    have hwindow : ∀ w, w <:+: retained → interval ≤ w.length →
        ∃ s ∈ w, s.hasCheckpoint = true := fun w hw hlong => hany w hw (by omega)
    refine ⟨hwindow, ?_⟩
    intro i hi hlt
    -- the entries up to the `i`-th, as many as the interval has
    have hw : (retained.drop (i - (interval - 1))).take interval <:+: retained :=
      (List.take_prefix _ _).isInfix.trans (List.drop_suffix _ _).isInfix
    have hlength : ((retained.drop (i - (interval - 1))).take interval).length = interval := by
      rw [List.length_take, List.length_drop]
      omega
    obtain ⟨s, hs, hsaved⟩ := hwindow _ hw (by omega)
    obtain ⟨n, hn, hget⟩ := List.mem_iff_getElem.mp hs
    rw [hlength] at hn
    refine ⟨i - (interval - 1) + n, s, by omega, by omega, ?_, hsaved⟩
    rw [List.getElem_take, List.getElem_drop] at hget
    rw [← hget, List.getElem?_eq_getElem]
  · intro hback
    have hnew : (TalliedHistory.new config).Unrewound := ⟨History.valid_empty config, rfl, rfl⟩
    exact (hnew.run hback).lost

/-- A probe that shows a position and can be saved. -/
def Probe.saved (step : Nat) : Probe := ⟨some ⟨step, none, none, none⟩, [], [], some ""⟩

/-- The operation that captures it. -/
def HistoryOperation.save (step : Nat) : HistoryOperation := .capture (some (.saved step))

/-- Going back and forth again loses nothing, and neither does an eviction. -/
theorem checkpoints_of_four :
    let ops : List HistoryOperation := [.save 0, .save 1, .save 2, .back, .forward, .save 3]
    let x := (TalliedHistory.new ⟨3, 2⟩).run ops
    (∀ op ∈ ops, op.saves = true) ∧ x.lost = 0
    ∧ ∀ w, w <:+: x.history.retained.toList → 2 ≤ w.length → ∃ s ∈ w, s.hasCheckpoint = true := by
  intro ops x
  have hsaves : ∀ op ∈ ops, op.saves = true := by decide
  have hlost : x.lost = 0 := by decide
  obtain ⟨-, hwhole, -⟩ := checkpoints_bound_gaps ⟨3, 2⟩ ops hsaves
  exact ⟨hsaves, hlost, (hwhole hlost).1⟩

/-- A capture after a step back may leave two snapshots in a row without a checkpoint, although every
second capture carries one: the one that would have stood between them was dropped. -/
theorem gap_after_step_back :
    let ops : List HistoryOperation := [.save 0, .save 1, .save 2, .back, .save 3]
    let retained := ((TalliedHistory.new ⟨10, 2⟩).run ops).history.retained.toList
    (∀ op ∈ ops, op.saves = true)
    ∧ retained.map (fun s => (s.position.stepNumber, s.hasCheckpoint))
        = [(0, true), (1, false), (3, false)]
    ∧ ∃ w, w <:+: retained ∧ w.length = 2 ∧ ¬∃ s ∈ w, s.hasCheckpoint = true := by
  intro ops retained
  refine ⟨by decide, by decide, retained.drop 1, (List.drop_suffix 1 retained).isInfix, ?_, ?_⟩
  · decide
  · have hnone : (retained.drop 1).all (fun s => !s.hasCheckpoint) = true := by decide
    rw [List.all_eq_true] at hnone
    rintro ⟨s, hs, hsaved⟩
    have hbare := hnone s hs
    rw [hsaved] at hbare
    cases hbare

/-! ## No bound on the gap -/

namespace History

/-- What is captured when a saved probe is. -/
theorem perform_save (h : History) (step : Nat) :
    ∃ s : Snapshot, s.hasCheckpoint = decide (h.captures % h.interval = 0)
      ∧ h.perform (.save step) = ({ h with captures := h.captures + 1 }.append s).1 := by
  have hposition : (Probe.saved step).position = some ⟨step, none, none, none⟩ := rfl
  refine ⟨h.shown (.saved step) ⟨step, none, none, none⟩, ?_, ?_⟩
  · unfold shown Snapshot.hasCheckpoint Probe.saved
    by_cases hdue : h.captures % h.interval = 0
    · simp [hdue]
    · simp [hdue]
  · show (h.capture (some (.saved step))).1 = _
    rw [h.capture_of_position hposition]

/-- A history that is not empty, with the cursor on the last snapshot, whose captures do not all carry a
checkpoint. -/
structure Sparse (h : History) : Prop where
  valid : h.Valid
  last : h.canStepForward = false
  size_pos : 0 < h.size
  two_le : 2 ≤ h.interval

section Sparse

variable {h : History}

theorem sparse_save (hv : h.Valid) (htwo : 2 ≤ h.interval) (step : Nat) :
    (h.perform (.save step)).Sparse := by
  obtain ⟨s, -, hsaved⟩ := h.perform_save step
  have hcounted := hv.withCaptures (h.captures + 1)
  rw [hsaved]
  refine ⟨hcounted.append s, hcounted.append_last s, ?_, ?_⟩
  · rw [hcounted.append_size]
    exact Nat.succ_pos _
  · rw [append_interval]
    exact htwo

/-- A history that holds some snapshots up to the cursor, has room for one more after them, and whose next
capture carries no checkpoint. -/
structure Between (h : History) (held : List Snapshot) (capacity : Nat) : Prop where
  valid : h.Valid
  two_le : 2 ≤ h.interval
  fits : h.overflows = false
  behind_eq : h.behind = held
  not_due : h.captures % h.interval ≠ 0
  capacity_eq : h.capacity = capacity

/-- The capture puts one snapshot more after them, without a checkpoint. -/
theorem Between.save {held : List Snapshot} {capacity : Nat} (hb : h.Between held capacity)
    (step : Nat) :
    ∃ s : Snapshot, s.hasCheckpoint = false
      ∧ (h.perform (.save step)).retained.toList = held ++ [s]
      ∧ (h.perform (.save step)).capacity = capacity ∧ (h.perform (.save step)).Sparse := by
  obtain ⟨s, hs, hsaved⟩ := h.perform_save step
  have hcounted := hb.valid.withCaptures (h.captures + 1)
  have hkept : h.kept = held := by
    unfold kept
    rw [hb.fits, if_neg Bool.false_ne_true, hb.behind_eq]
  refine ⟨s, ?_, ?_, ?_, sparse_save hb.valid hb.two_le step⟩
  · rw [hs]
    exact decide_eq_false hb.not_due
  · rw [hsaved, hcounted.append_retained, ← hkept]
    rfl
  · rw [hsaved, append_capacity]
    exact hb.capacity_eq

theorem Sparse.fits (hh : h.Sparse) (hroom : h.size < h.capacity) : h.overflows = false := by
  rw [Bool.eq_false_iff]
  intro ho
  have hfull := (hh.valid.overflows_iff.mp ho).2
  omega

/-- A checkpoint that is captured and stepped back from lies ahead of the cursor, to be dropped by the next
capture, and the count has gone on. -/
theorem Sparse.between_of_due (hh : h.Sparse) (hroom : h.size < h.capacity)
    (hdue : h.captures % h.interval = 0) :
    ((h.perform (.save 0)).perform .back).Between h.retained.toList h.capacity := by
  have hpos := hh.size_pos
  have htwo := hh.two_le
  obtain ⟨s, -, hsaved⟩ := h.perform_save 0
  have hcounted := hh.valid.withCaptures (h.captures + 1)
  have hkept : { h with captures := h.captures + 1 }.kept = h.retained.toList := by
    show h.kept = h.retained.toList
    unfold kept
    rw [hh.fits hroom, if_neg Bool.false_ne_true, hh.valid.behind_of_last hh.last]
  have hlength : h.retained.toList.length = h.size - 1 + 1 := by
    show h.size = h.size - 1 + 1
    omega
  -- what the capture made
  have hretained := hcounted.append_retained s
  have hcursor := hcounted.append_cursor s
  have hcapacity := append_capacity { h with captures := h.captures + 1 } s
  have hinterval := append_interval { h with captures := h.captures + 1 } s
  have hcaptures := append_captures { h with captures := h.captures + 1 } s
  have hvalid := (hcounted.append s).stepBack
  rw [hkept] at hretained hcursor
  rw [hlength] at hcursor
  rw [← hsaved] at hretained hcursor hcapacity hinterval hcaptures hvalid
  -- and what the step back makes of it
  have hback : (h.perform (.save 0)).stepBack.1
      = { h.perform (.save 0) with cursor := some (h.size - 1) } :=
    congrArg Prod.fst (stepBack_of_cursor hcursor)
  show ((h.perform (.save 0)).stepBack.1).Between h.retained.toList h.capacity
  rw [hback] at hvalid ⊢
  refine ⟨hvalid, ?_, ?_, ?_, ?_, hcapacity⟩
  · show 2 ≤ (h.perform (.save 0)).interval
    rw [hinterval]
    exact htwo
  · show ((some (h.size - 1)).map (· + 1) == some (h.perform (.save 0)).capacity) = false
    rw [hcapacity]
    simp
    omega
  · show (h.perform (.save 0)).retained.toList.take (h.size - 1 + 1) = h.retained.toList
    rw [hretained, ← hlength, List.take_left]
  · show (h.perform (.save 0)).captures % (h.perform (.save 0)).interval ≠ 0
    rw [hcaptures, hinterval]
    show (h.captures + 1) % h.interval ≠ 0
    rw [Nat.add_mod, hdue, Nat.zero_add, Nat.mod_mod, Nat.mod_eq_of_lt htwo]
    exact Nat.one_ne_zero

/-- Where there is room, a snapshot without a checkpoint can be put at the end. -/
theorem Sparse.exists_unsaved (hh : h.Sparse) (hroom : h.size < h.capacity) :
    ∃ ops : List HistoryOperation, (∀ op ∈ ops, op.saves = true) ∧
      let h' := ops.foldl perform h
      h'.Sparse ∧ h'.capacity = h.capacity
        ∧ ∃ s : Snapshot, s.hasCheckpoint = false
            ∧ h'.retained.toList = h.retained.toList ++ [s] := by
  have hbetween : ∃ ops : List HistoryOperation, (∀ op ∈ ops, op.saves = true)
      ∧ (ops.foldl perform h).Between h.retained.toList h.capacity := by
    by_cases hdue : h.captures % h.interval = 0
    · exact ⟨[.save 0, .back], by decide, hh.between_of_due hroom hdue⟩
    · exact ⟨[], by simp, hh.valid, hh.two_le, hh.fits hroom, hh.valid.behind_of_last hh.last, hdue, rfl⟩
  obtain ⟨ops, hops, hbetween⟩ := hbetween
  obtain ⟨s, hs, hretained, hcapacity, hsparse⟩ := hbetween.save 0
  have hall : ∀ op ∈ ops ++ [HistoryOperation.save 0], op.saves = true := by
    intro op hop
    rcases List.mem_append.mp hop with hop | hop
    · exact hops op hop
    · rw [List.mem_singleton.mp hop]
      rfl
  have hsteps : (ops ++ [HistoryOperation.save 0]).foldl perform h
      = (ops.foldl perform h).perform (.save 0) := List.foldl_append
  refine ⟨ops ++ [.save 0], hall, ?_⟩
  rw [hsteps]
  exact ⟨hsparse, hcapacity, s, hs, hretained⟩

/-- And as many of them as there is room for. The induction is on their number. -/
theorem Sparse.exists_unsaved_run (n : Nat) (hh : h.Sparse) (hroom : h.size + n ≤ h.capacity) :
    ∃ ops : List HistoryOperation, (∀ op ∈ ops, op.saves = true)
      ∧ ∃ w, w.length = n ∧ Unsaved w
          ∧ (ops.foldl perform h).retained.toList = h.retained.toList ++ w := by
  induction n generalizing h with
  | zero => exact ⟨[], by simp, [], rfl, by simp [Unsaved], by simp⟩
  | succ n ih =>
    obtain ⟨ops, hops, hsparse, hcapacity, s, hs, hretained⟩ := hh.exists_unsaved (by omega)
    have hsize : (ops.foldl perform h).size = h.size + 1 := by
      have hlength := congrArg List.length hretained
      rw [List.length_append, List.length_singleton] at hlength
      exact hlength
    obtain ⟨ops', hops', w, hw, hunsaved, hretained'⟩ := ih hsparse (by omega)
    refine ⟨ops ++ ops', ?_, s :: w, by rw [List.length_cons, hw], ?_, ?_⟩
    · intro op hop
      rcases List.mem_append.mp hop with hop | hop
      · exact hops op hop
      · exact hops' op hop
    · exact List.forall_mem_cons.mpr ⟨hs, hunsaved⟩
    · rw [List.foldl_append, hretained', hretained, List.append_assoc]
      rfl

end Sparse

end History

theorem TalliedHistory.run_history (x : TalliedHistory) (ops : List HistoryOperation) :
    (x.run ops).history = ops.foldl History.perform x.history := by
  induction ops generalizing x with
  | nil => rfl
  | cons op ops ih => exact ih (x.perform op)

/-- Unless every capture carries a checkpoint, there is no bound on the retained snapshots in a row that
carry none: stepping back from a checkpoint and capturing again makes any gap longer by one. -/
theorem exists_gap {interval : Nat} (htwo : 2 ≤ interval) (n : Nat) :
    ∃ ops : List HistoryOperation, (∀ op ∈ ops, op.saves = true)
      ∧ ∃ w, w <:+: ((TalliedHistory.new ⟨n + 1, interval⟩).run ops).history.retained.toList
          ∧ w.length = n ∧ Unsaved w := by
  -- one snapshot is captured to begin with
  generalize hempty : History.empty ⟨n + 1, interval⟩ = h
  have hv : h.Valid := hempty ▸ History.valid_empty _
  have hinterval : 2 ≤ h.interval := by
    rw [← hempty]
    show 2 ≤ max interval 1
    omega
  have hroom : (h.perform (.save 0)).size + n ≤ (h.perform (.save 0)).capacity := by
    obtain ⟨s, -, hsaved⟩ := h.perform_save 0
    have hkept : { h with captures := h.captures + 1 }.kept.length = 0 := by
      rw [← hempty]
      rfl
    rw [hsaved, (hv.withCaptures _).append_size, hkept, History.append_capacity, ← hempty]
    show 0 + 1 + n ≤ max (n + 1) 1
    omega
  obtain ⟨ops, hops, w, hw, hunsaved, hretained⟩ :=
    (History.sparse_save hv hinterval 0).exists_unsaved_run n hroom
  refine ⟨.save 0 :: ops, ?_, w, ?_, hw, hunsaved⟩
  · exact List.forall_mem_cons.mpr ⟨rfl, hops⟩
  · have hrun : ((TalliedHistory.new ⟨n + 1, interval⟩).run (.save 0 :: ops)).history
        = ops.foldl History.perform (h.perform (.save 0)) := by
      rw [TalliedHistory.run_history, ← hempty]
      rfl
    rw [hrun, hretained]
    exact (List.suffix_append _ w).isInfix

end Retrace
