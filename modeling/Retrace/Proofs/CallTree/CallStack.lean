import Retrace.Proofs.CallTree.Intervals
import Retrace.Proofs.CallTree.Walk
import Mathlib.Data.List.Chain
/-!
# Outstanding calls match the call stack

Where each snapshot has the call stack of the one before it, or a named frame more on top of it, or its
top frame less, the outstanding calls are those of the frames on top of the stack: as many as were pushed
since the stack was at its lowest. Below that are frames that were there when the stack was at its lowest,
and they belong to no call; when one of them goes, a return is seen with no call outstanding, and it is
ignored.

The walk carries along for each call where its frame was pushed (`FrameSpan`). What lies below the frame
tells when it goes: at the first snapshot that has no more than that on its stack. With this the
correspondence between calls and frames is kept by every move (`Matches.move`), and so by the
whole walk.
-/

namespace Retrace

/-- How the call stack may differ from one snapshot to the next: not at all, or by one frame on top. A frame
that is pushed is a named one. -/
inductive Snapshot.Moves (s s' : Snapshot) : Prop where
  | stays (h : s'.frames = s.frames)
  | pushes (frame : Frame) (hnamed : frame.isNamedCall = true) (h : s'.frames = frame :: s.frames)
  | pops (frame : Frame) (h : s.frames = frame :: s'.frames)

theorem Gathered.wellFormed_ofSnapshots (shots : List Snapshot) :
    (ofSnapshots shots).tracker.WellFormed := by
  rw [tracker_ofSnapshots_eq_followAll]
  exact Tracker.wellFormed_empty.followAll _

/-! ## The text of arguments -/

namespace Tracker

/-- Whether every call has its arguments also as text. -/
abbrev Worded (t : Tracker) : Prop :=
  ∀ (i : Nat) (n : CallNode), t.nodes[i]? = some n →
    n.argumentsText = argumentsText .forCallTree n.arguments

/-- Neither the arguments of a call nor their text change once it is made. -/
theorem WellFormed.worded_follow {t : Tracker} (hw : t.WellFormed) (h : t.Worded)
    (e : CallEvent) : (t.follow e).Worded := by
  intro i n hn
  cases e with
  | enter c =>
    rcases enter_cases hw hn with ⟨-, rfl⟩ | ⟨m, hm, rfl⟩
    · rfl
    · exact h i m hm
  | leave value step =>
    have hn : (t.leave value step).1.nodes[i]? = some n := hn
    cases ho : t.outstanding with
    | nil =>
      rw [leave_of_nil ho] at hn
      exact h i n hn
    | cons id callers =>
      obtain ⟨m, hm, ⟨-, rfl⟩ | ⟨-, rfl⟩⟩ := leave_cases hw ho hn
      · exact h i m hm
      · exact h i m hm

theorem worded_followAll (events : List CallEvent) : (empty.followAll events).Worded := by
  induction events using List.reverseRecOn with
  | nil =>
    intro i n hn
    cases hn
  | append_singleton events e ih =>
    rw [followAll_append]
    exact (wellFormed_empty.followAll events).worded_follow ih e

end Tracker

/-! ## The frame of a call -/

/-- The call `c`, which has the number `i`, is read off the snapshot after place `k`, where `frame` is pushed
on the stack `below`; and from there up to place `j`, excluded, the frame stays on the stack. -/
structure FrameSpan (shots : List Snapshot) (i : Nat) (c : Call) (frame : Frame)
    (below : List Frame) (k j : Nat) : Prop where
  number : (Gathered.ofSnapshots (shots.take (k + 1))).tracker.totalCalls = i
  before : ∃ s, shots[k]? = some s ∧ s.frames = below
  pushed : ∃ s, shots[k + 1]? = some s ∧ s.frames = frame :: below
    ∧ c = ⟨frame.functionName, frame.arguments.map .string, s.position.stepNumber, frame.line⟩
  lt : k + 1 < j
  held : ∀ q, k < q → q < j → ∀ s, shots[q]? = some s → frame :: below <:+ s.frames

namespace FrameSpan

variable {shots : List Snapshot} {i k j : Nat} {c : Call} {frame : Frame} {below : List Frame}

/-- Later snapshots change nothing of it. -/
theorem concat (h : FrameSpan shots i c frame below k j) (hj : j ≤ shots.length) (s : Snapshot) :
    FrameSpan (shots ++ [s]) i c frame below k j := by
  have hlt := h.lt
  have hat : ∀ {q : Nat}, q < j → (shots ++ [s])[q]? = shots[q]? := fun hq =>
    List.getElem?_append_left (Nat.lt_of_lt_of_le hq hj)
  refine ⟨?_, ?_, ?_, hlt, ?_⟩
  · rw [List.take_append_of_le_length (by omega)]
    exact h.number
  · rw [hat (by omega)]
    exact h.before
  · rw [hat hlt]
    exact h.pushed
  · intro q hk hq s' hs'
    rw [hat hq] at hs'
    exact h.held q hk hq s' hs'

/-- A frame that is still there stays on for one more snapshot that has it on its stack. -/
theorem extend (h : FrameSpan shots i c frame below k shots.length) {s : Snapshot}
    (hs : frame :: below <:+ s.frames) :
    FrameSpan (shots ++ [s]) i c frame below k (shots ++ [s]).length := by
  obtain ⟨hnumber, hbefore, hpushed, hlt, hheld⟩ := h.concat (Nat.le_refl _) s
  rw [List.length_append, List.length_singleton]
  refine ⟨hnumber, hbefore, hpushed, by omega, ?_⟩
  intro q hk hq s' hs'
  by_cases hlast : q < shots.length
  · exact hheld q hk hlast s' hs'
  · have hq : q = shots.length := by omega
    rw [hq, List.getElem?_concat_length] at hs'
    injection hs' with hs'
    rw [← hs']
    exact hs

/-- The frame that a last snapshot pushes. -/
theorem pushed_last (before : List Snapshot) {current s : Snapshot} {frame : Frame}
    (hframes : s.frames = frame :: current.frames) :
    FrameSpan (before ++ [current] ++ [s])
      (Gathered.ofSnapshots (before ++ [current])).tracker.totalCalls ⟨frame.functionName,
        frame.arguments.map .string, s.position.stepNumber, frame.line⟩ frame current.frames
      before.length (before ++ [current] ++ [s]).length where
  number := by
    have hall : before.length + 1 = (before ++ [current]).length := by simp
    rw [hall, List.take_left]
  before := ⟨current, by simp, rfl⟩
  pushed := ⟨s, by simp, hframes, rfl⟩
  lt := by simp
  held q hk hq s' hs' := by
    have hlast : q = (before ++ [current]).length := by
      simp only [List.length_append, List.length_cons, List.length_nil] at hq ⊢
      omega
    rw [hlast, List.getElem?_concat_length] at hs'
    injection hs' with hs'
    have htop : frame :: current.frames = s'.frames := by rw [← hs', hframes]
    exact htop ▸ List.suffix_rfl

end FrameSpan

theorem suffix_of_getElem? {α : Type} {xs : List α} {p : Nat} {x : α} (h : xs[p]? = some x) :
    x :: xs.drop (p + 1) <:+ xs := by
  obtain ⟨hlt, rfl⟩ := List.getElem?_eq_some_iff.mp h
  rw [List.getElem_cons_drop hlt]
  exact List.drop_suffix p xs

/-! ## The correspondence -/

/-- How the tracker stands to the call stack after some snapshots, `current` being the last one and
`least` the least depth among them. -/
structure Matches (before : List Snapshot) (current : Snapshot) (least : Nat) (t : Tracker) :
    Prop where
  tracker_eq : (Gathered.ofSnapshots (before ++ [current])).tracker = t
  depth_eq : (Gathered.ofSnapshots (before ++ [current])).baseline.depth = some current.depth
  least_le : ∀ s ∈ before ++ [current], least ≤ s.depth
  least_mem : ∃ s ∈ before ++ [current], s.depth = least
  length_eq : t.outstanding.length + least = current.depth
  on_stack : ∀ (p i : Nat) (n : CallNode), t.outstanding[p]? = some i → t.nodes[i]? = some n →
    ∃ frame k, current.frames[p]? = some frame
      ∧ FrameSpan (before ++ [current]) i n.call frame (current.frames.drop (p + 1)) k
        (before ++ [current]).length
  off_stack : ∀ (i : Nat) (n : CallNode), t.nodes[i]? = some n → i ∉ t.outstanding →
    ∃ frame below k j s, FrameSpan (before ++ [current]) i n.call frame below k j
      ∧ (before ++ [current])[j]? = some s ∧ s.frames = below
      ∧ n.endStep = some s.position.stepNumber

namespace Matches

variable {before : List Snapshot} {current s : Snapshot} {least : Nat} {t : Tracker}

theorem wellFormed (h : Matches before current least t) : t.WellFormed := by
  rw [← h.tracker_eq]
  exact Gathered.wellFormed_ofSnapshots _

/-- The first snapshot has no call outstanding, and its depth is the least one. -/
theorem seeded (seed : Snapshot) : Matches [] seed seed.depth .empty where
  tracker_eq := rfl
  depth_eq := rfl
  least_le s hs := by
    rw [List.mem_singleton.mp hs]
  least_mem := ⟨seed, List.mem_singleton.mpr rfl, rfl⟩
  length_eq := Nat.zero_add _
  on_stack _ _ _ hp := nomatch hp
  off_stack _ _ hn := nomatch hn

/-- A snapshot no lower than the lowest one leaves that as it is. -/
theorem least_concat (h : Matches before current least t) (hs : least ≤ s.depth) :
    (∀ s' ∈ before ++ [current] ++ [s], least ≤ s'.depth)
    ∧ ∃ s' ∈ before ++ [current] ++ [s], s'.depth = least := by
  constructor
  · intro s' hs'
    rcases List.mem_append.mp hs' with hold | hnew
    · exact h.least_le s' hold
    · rw [List.mem_singleton.mp hnew]
      exact hs
  · obtain ⟨s', hs', hdepth⟩ := h.least_mem
    exact ⟨s', List.mem_append_left _ hs', hdepth⟩

theorem off_stack_concat (h : Matches before current least t) {i : Nat} {m : CallNode}
    (hm : t.nodes[i]? = some m) (hi : i ∉ t.outstanding) :
    ∃ frame below k j s', FrameSpan (before ++ [current] ++ [s]) i m.call frame below k j
      ∧ (before ++ [current] ++ [s])[j]? = some s' ∧ s'.frames = below
      ∧ m.endStep = some s'.position.stepNumber := by
  obtain ⟨frame, below, k, j, s', hspan, hs', hlost, hend⟩ := h.off_stack i m hm hi
  have hj := (List.getElem?_eq_some_iff.mp hs').choose
  refine ⟨frame, below, k, j, s', hspan.concat (Nat.le_of_lt hj) s, ?_, hlost, hend⟩
  rw [List.getElem?_append_left hj]
  exact hs'

theorem stays (h : Matches before current least t) (hframes : s.frames = current.frames) :
    Matches (before ++ [current]) s least t := by
  have hdepth : s.depth = current.depth := congrArg List.length hframes
  have hbaseline := h.depth_eq
  rw [← hdepth] at hbaseline
  obtain ⟨hsame, htracker⟩ := Gathered.observe_same hbaseline
  obtain ⟨hle, hmem⟩ := h.least_concat (s := s) (hdepth ▸ h.least_le current (by simp))
  refine ⟨?_, ?_, hle, hmem, hdepth ▸ h.length_eq, ?_, ?_⟩
  · rw [Gathered.ofSnapshots_concat, htracker]
    exact h.tracker_eq
  · rw [Gathered.ofSnapshots_concat]
    exact hsame
  · intro p i n hp hn
    obtain ⟨frame, k, hframe, hspan⟩ := h.on_stack p i n hp hn
    rw [← hframes] at hframe hspan
    exact ⟨frame, k, hframe, hspan.extend (suffix_of_getElem? hframe)⟩
  · intro i n hn hi
    exact h.off_stack_concat hn hi

theorem pushes (h : Matches before current least t) {frame : Frame}
    (hnamed : frame.isNamedCall = true) (hframes : s.frames = frame :: current.frames) :
    Matches (before ++ [current]) s least (t.enter ⟨frame.functionName,
      frame.arguments.map .string, s.position.stepNumber, frame.line⟩).1 := by
  have hw := h.wellFormed
  have hdepth : s.depth = current.depth + 1 := congrArg List.length hframes
  obtain ⟨hbaseline, htracker⟩ := Gathered.observe_push h.depth_eq hframes hnamed
  rw [h.tracker_eq] at htracker
  have hlow := h.least_le current (by simp)
  obtain ⟨hle, hmem⟩ := h.least_concat (s := s) (by omega)
  have hlength := h.length_eq
  refine ⟨?_, ?_, hle, hmem, ?_, ?_, ?_⟩
  · rw [Gathered.ofSnapshots_concat]
    exact htracker
  · rw [Gathered.ofSnapshots_concat, hdepth]
    exact hbaseline
  · rw [Tracker.outstanding_enter, List.length_cons]
    omega
  · intro p i n hp hn
    rw [Tracker.outstanding_enter] at hp
    rw [hframes]
    cases p with
    | zero =>
      -- the new call, whose frame was pushed right now
      injection hp with hp
      rw [← hp, Tracker.getElem?_enter_new hw] at hn
      injection hn with hn
      have hspan := FrameSpan.pushed_last before hframes
      rw [h.tracker_eq] at hspan
      rw [← hn, ← hp]
      exact ⟨frame, before.length, rfl, hspan⟩
    | succ p =>
      -- the others are one place further down, and so are their frames
      have hlt := hw.lt_of_outstanding (List.mem_of_getElem? hp)
      rcases Tracker.enter_cases hw hn with ⟨hnew, -⟩ | ⟨m, hm, rfl⟩
      · omega
      · obtain ⟨old, k, hold, hspan⟩ := h.on_stack p i m hp hm
        refine ⟨old, k, hold, hspan.extend ?_⟩
        rw [hframes]
        exact (suffix_of_getElem? hold).trans (List.suffix_cons frame current.frames)
  · intro i n hn hi
    rw [Tracker.outstanding_enter, List.mem_cons, not_or] at hi
    rcases Tracker.enter_cases hw hn with ⟨hnew, -⟩ | ⟨m, hm, rfl⟩
    · exact absurd hnew hi.1
    · have hold := h.off_stack_concat (s := s) hm hi.2
      exact hold

theorem gathered_pop (h : Matches before current least t) {frame : Frame}
    (hframes : current.frames = frame :: s.frames) :
    (Gathered.ofSnapshots (before ++ [current] ++ [s])).tracker
        = (t.leave s.returnValue? s.position.stepNumber).1
      ∧ (Gathered.ofSnapshots (before ++ [current] ++ [s])).baseline.depth = some s.depth
      ∧ current.depth = s.depth + 1 := by
  have hdepth : current.depth = s.depth + 1 := congrArg List.length hframes
  have hbaseline := h.depth_eq
  rw [hdepth] at hbaseline
  obtain ⟨hbaseline, htracker⟩ := Gathered.observe_pop hbaseline rfl
  rw [h.tracker_eq] at htracker
  rw [Gathered.ofSnapshots_concat]
  exact ⟨htracker, hbaseline, hdepth⟩

/-- With no call outstanding the stack is at its lowest, and a frame that goes belonged to no call. -/
theorem pops_lowest (h : Matches before current least t) (hnone : t.outstanding = []) {frame : Frame}
    (hframes : current.frames = frame :: s.frames) :
    Matches (before ++ [current]) s s.depth t := by
  obtain ⟨htracker, hbaseline, hdepth⟩ := h.gathered_pop hframes
  rw [Tracker.leave_of_nil hnone] at htracker
  have hlow : s.depth ≤ least := by
    have hlength := h.length_eq
    rw [hnone, List.length_nil] at hlength
    omega
  refine ⟨htracker, hbaseline, ?_, ⟨s, by simp, rfl⟩, ?_, ?_, ?_⟩
  · intro s' hs'
    rcases List.mem_append.mp hs' with hold | hnew
    · exact Nat.le_trans hlow (h.least_le s' hold)
    · rw [List.mem_singleton.mp hnew]
  · rw [hnone]
    exact Nat.zero_add _
  · intro p i n hp
    rw [hnone] at hp
    cases hp
  · intro i n hn hi
    exact h.off_stack_concat hn hi

/-- With a call outstanding, the frame that goes is that of the innermost one. -/
theorem pops_call (h : Matches before current least t) {id : Nat} {callers : List Nat}
    (ho : t.outstanding = id :: callers) {frame : Frame}
    (hframes : current.frames = frame :: s.frames) :
    Matches (before ++ [current]) s least (t.leave s.returnValue? s.position.stepNumber).1 := by
  have hw := h.wellFormed
  obtain ⟨htracker, hbaseline, hdepth⟩ := h.gathered_pop hframes
  have hlength := h.length_eq
  rw [ho, List.length_cons] at hlength
  obtain ⟨hle, hmem⟩ := h.least_concat (s := s) (by omega)
  refine ⟨htracker, hbaseline, hle, hmem, ?_, ?_, ?_⟩
  · rw [Tracker.outstanding_leave ho]
    omega
  · -- the others are one place further up, and so are their frames
    intro p i n hp hn
    rw [Tracker.outstanding_leave ho] at hp
    have hp : t.outstanding[p + 1]? = some i := by
      rw [ho]
      exact hp
    obtain ⟨m, hm, hcases⟩ := Tracker.leave_cases hw ho hn
    have hcall : n.call = m.call := by
      rcases hcases with ⟨-, rfl⟩ | ⟨-, rfl⟩
      · rfl
      · rfl
    obtain ⟨old, k, hold, hspan⟩ := h.on_stack (p + 1) i m hp hm
    rw [hframes] at hold hspan
    have hold : s.frames[p]? = some old := hold
    have hspan : FrameSpan _ i m.call old (s.frames.drop (p + 1)) k _ := hspan
    rw [hcall]
    exact ⟨old, k, hold, hspan.extend (suffix_of_getElem? hold)⟩
  · intro i n hn hi
    rw [Tracker.outstanding_leave ho] at hi
    obtain ⟨m, hm, ⟨rfl, rfl⟩ | ⟨hne, rfl⟩⟩ := Tracker.leave_cases hw ho hn
    · obtain ⟨top, k, -, hspan⟩ := h.on_stack 0 i m (by rw [ho]; rfl) hm
      rw [hframes] at hspan
      exact ⟨top, s.frames, k, (before ++ [current]).length, s, hspan.concat (Nat.le_refl _) s,
        List.getElem?_concat_length, rfl, rfl⟩
    · have hout : i ∉ t.outstanding := by
        rw [ho, List.mem_cons, not_or]
        exact ⟨hne, hi⟩
      have hold := h.off_stack_concat (s := s) hm hout
      exact hold

theorem move (h : Matches before current least t) (hmove : current.Moves s) :
    ∃ least' t', Matches (before ++ [current]) s least' t' := by
  cases hmove with
  | stays hframes => exact ⟨_, _, h.stays hframes⟩
  | pushes frame hnamed hframes => exact ⟨_, _, h.pushes hnamed hframes⟩
  | pops frame hframes =>
    cases ho : t.outstanding with
    | nil => exact ⟨_, _, h.pops_lowest ho hframes⟩
    | cons id callers => exact ⟨_, _, h.pops_call ho hframes⟩

/-- The correspondence is kept along the walk. The induction is on the snapshots that follow. -/
theorem walk (h : Matches before current least t) {moves : List Snapshot}
    (hmoves : (current :: moves).IsChain Snapshot.Moves) :
    ∃ before' current' least' t', before ++ current :: moves = before' ++ [current']
      ∧ Matches before' current' least' t' := by
  induction moves generalizing before current least t with
  | nil => exact ⟨before, current, least, t, rfl, h⟩
  | cons s moves ih =>
    obtain ⟨hmove, hlater⟩ := List.isChain_cons_cons.mp hmoves
    obtain ⟨least', t', hmoved⟩ := h.move hmove
    obtain ⟨before', current', least'', t'', hsplit, hmatches⟩ := ih hmoved hlater
    refine ⟨before', current', least'', t'', ?_, hmatches⟩
    rw [← hsplit, List.append_assoc]
    rfl

end Matches

/-- **Outstanding calls match the call stack.** Take any snapshot and others after it, where the call stack
stays as it is, or is pushed a named frame, or loses its top frame, and look at what has been read off
after any of them. As many calls are outstanding as the stack is deeper than at its lowest. From the
innermost out they are the calls of the frames on top of the stack: each has the name and the arguments
of the frame at its place, was read off the snapshot that pushed this frame, and was made by the next one,
and the outermost one is a root. Every other call has returned, and it ended at the step of the snapshot
in which its frame was gone: the first one after the push that has no more than what lay below. -/
theorem outstanding_match_stack (seed : Snapshot) (moves : List Snapshot)
    (hmoves : (seed :: moves).IsChain Snapshot.Moves) (before : List Snapshot)
    (hbefore : before <+: moves) :
    let shots := seed :: before
    let t := (Gathered.ofSnapshots shots).tracker
    ∃ (current : Snapshot) (least : Nat), shots.getLast? = some current
      ∧ (shots.map Snapshot.depth).min? = some least
      ∧ t.outstanding.length + least = current.depth
      ∧ (∀ (p i : Nat), t.outstanding[p]? = some i → ∃ n frame k, t.nodes[i]? = some n
          ∧ current.frames[p]? = some frame
          ∧ n.functionName = frame.functionName ∧ n.arguments = frame.arguments.map .string
          ∧ n.argumentsText = ", ".intercalate frame.arguments
          ∧ FrameSpan shots i n.call frame (current.frames.drop (p + 1)) k shots.length
          ∧ n.parent = t.outstanding[p + 1]?
          ∧ (p + 1 = t.outstanding.length → n.parent = none ∧ i ∈ t.roots.toList))
      ∧ ∀ (i : Nat) (n : CallNode), t.nodes[i]? = some n → i ∉ t.outstanding →
          n.hasReturned = true
          ∧ ∃ frame below k j s, FrameSpan shots i n.call frame below k j ∧ shots[j]? = some s
            ∧ s.frames = below ∧ n.endStep = some s.position.stepNumber := by
  intro shots t
  have hchain : (seed :: before).IsChain Snapshot.Moves :=
    hmoves.prefix ((List.prefix_cons_inj seed).mpr hbefore)
  obtain ⟨earlier, current, least, t', hsplit, h⟩ := (Matches.seeded seed).walk hchain
  have hshots : shots = earlier ++ [current] := hsplit
  have htracker : t = t' := by
    rw [← h.tracker_eq, ← hshots]
  have hw := h.wellFormed
  rw [htracker, hshots]
  refine ⟨current, least, by simp, ?_, h.length_eq, ?_, ?_⟩
  · rw [List.min?_eq_some_iff]
    constructor
    · exact List.mem_map.mpr h.least_mem
    · intro depth hdepth
      obtain ⟨s, hs, rfl⟩ := List.mem_map.mp hdepth
      exact h.least_le s hs
  · intro p i hp
    obtain ⟨n, hn, -⟩ := (hw.mem_outstanding i).mp (List.mem_of_getElem? hp)
    obtain ⟨frame, k, hframe, hspan⟩ := h.on_stack p i n hp hn
    obtain ⟨s, -, -, hcall⟩ := hspan.pushed
    have hparent := (hw.chain p i n hp hn).1
    have hname : n.functionName = frame.functionName := congrArg Call.functionName hcall
    have harguments : n.arguments = frame.arguments.map .string := congrArg Call.arguments hcall
    have hworded : t'.Worded := by
      rw [← h.tracker_eq, Gathered.tracker_ofSnapshots_eq_followAll]
      exact Tracker.worded_followAll _
    refine ⟨n, frame, k, hn, hframe, hname, harguments, ?_, hspan, hparent, ?_⟩
    · rw [hworded i n hn, harguments]
      exact CallPlan.argumentsText_strings .forCallTree frame.arguments
    · intro hlast
      rw [List.getElem?_eq_none (Nat.le_of_eq hlast.symm)] at hparent
      exact ⟨hparent, (hw.mem_roots i).mpr ⟨n, hn, hparent⟩⟩
  · intro i n hn hi
    exact ⟨hw.hasReturned_of_not_outstanding hn hi, h.off_stack i n hn hi⟩

/-- A snapshot of a program that shows nothing but its call stack, at some step. -/
def Snapshot.stackAt (step : Nat) (names : List String) : Snapshot :=
  ⟨⟨step, none, none, none⟩, [], names.map fun name => ⟨name, [], none, none⟩, none⟩

/-- A program is seen first inside `b`, which `a` has called. That call of `b` comes to its end, and so does
the one of `a`, which are returns of no call seen; then `f` is called, which calls `g` and, after `g`
has returned at step 5, `h`. -/
theorem match_below_seed :
    let seed := Snapshot.stackAt 0 ["b", "a"]
    let moves := [Snapshot.stackAt 1 ["a"], .stackAt 2 [], .stackAt 3 ["f"], .stackAt 4 ["g", "f"],
      .stackAt 5 ["f"], .stackAt 6 ["h", "f"]]
    let t := (Gathered.ofSnapshots (seed :: moves)).tracker
    (seed :: moves).IsChain Snapshot.Moves
    ∧ t.outstanding = [2, 0]
    ∧ (∃ n : CallNode, t.nodes[2]? = some n ∧ n.functionName = "h" ∧ n.parent = some 0)
    ∧ (∃ n : CallNode, t.nodes[0]? = some n ∧ n.functionName = "f" ∧ 0 ∈ t.roots.toList)
    ∧ ∃ n : CallNode, t.nodes[1]? = some n ∧ n.endStep = some 5
      ∧ ∃ frame below k j s, FrameSpan (seed :: moves) 1 n.call frame below k j
        ∧ (seed :: moves)[j]? = some s ∧ s.frames = below
        ∧ n.endStep = some s.position.stepNumber := by
  intro seed moves t
  have hchain : (seed :: moves).IsChain Snapshot.Moves := by
    refine .cons_cons (.pops _ rfl) <| .cons_cons (.pops _ rfl) <|
      .cons_cons (.pushes _ (by decide) rfl) <| .cons_cons (.pushes _ (by decide) rfl) <|
      .cons_cons (.pops _ rfl) <| .cons_cons (.pushes _ (by decide) rfl) <| .singleton _
  have hstack : t.outstanding = [2, 0] := by decide +kernel
  have hended : t.nodes[1]?.map (·.endStep) = some (some 5) := by decide +kernel
  obtain ⟨current, least, hlast, -, -, hon, hoff⟩ :=
    outstanding_match_stack seed moves hchain moves List.prefix_rfl
  injection hlast with hcurrent
  obtain ⟨h, top, -, hh, htop, hnameh, -, -, -, hparent, -⟩ := hon 0 2 (by rw [hstack]; rfl)
  obtain ⟨f, next, -, hf, hnext, hnamef, -, -, -, -, hroot⟩ := hon 1 0 (by rw [hstack]; rfl)
  obtain ⟨g, hg, hend⟩ := Option.map_eq_some_iff.mp hended
  obtain ⟨-, hspan⟩ := hoff 1 g hg (by rw [hstack]; decide)
  rw [← hcurrent] at htop hnext
  injection htop with htop
  injection hnext with hnext
  rw [← htop] at hnameh
  rw [← hnext] at hnamef
  rw [hstack] at hparent hroot
  exact ⟨hchain, hstack, ⟨h, hh, hnameh, hparent⟩, ⟨f, hf, hnamef, (hroot rfl).2⟩, g, hg, hend, hspan⟩

end Retrace
