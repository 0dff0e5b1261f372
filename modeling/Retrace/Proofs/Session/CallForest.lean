import Retrace.Proofs.CallTree.Walk
import Retrace.Proofs.Session.Captures
import Retrace.Proofs.Session.Completion
/-!
# The calls of a recorded program are found again

Record a program that stands on some call stack, makes the calls of a plan, and shows each push and
each pop as an entry on a line of its own (`Trace.Records`). A session that plays the record to its end
shows the planned calls again: the same forest, numbered in the order of the calls, each call with its
arguments, with the entries of its push and its pop as first and last step, and returned
(`forest_of_records`).

Every entry of such a record is a stop, so the session sees each of them but the first; the second one
tells it how deep the base call stack is, and from there on the depths alone give the calls.
-/

namespace Retrace

open Json (Value)
open Session (Operation IsPlaying)

/-- What a session that stops at an entry shows of it, apart from checkpoints. -/
def Trace.shot (t : Trace) (q : Nat) : Snapshot := (t.entries[q]?.getD .blank).copy q

/-- The value that is taken for the one returned at an entry. -/
def Trace.returned (t : Trace) (q : Nat) : Option Value := (t.shot q).returnValue?

/-- A record of planned calls, made on a base call stack, that is played to its end within some
limits. -/
structure Trace.Records (t : Trace) (base : List Frame) (plans : List CallPlan)
    (limits : PlayerLimits) : Prop where
  /-- Two entries show the base call stack, and from there on each entry shows a push or a pop. -/
  frames_eq : t.entries.toList.map Entry.frames = base :: base :: CallPlan.walkAll base plans
  has_line : ∀ (i : Nat) (e : Entry), t.entries[i]? = some e → e.line.isSome = true
  lines_differ : ∀ (i : Nat) (e e' : Entry), t.entries[i]? = some e → t.entries[i + 1]? = some e' →
    e.line ≠ e'.line
  no_error : ∀ (i : Nat) (e : Entry), t.entries[i]? = some e → e.error = none
  size_le : t.entries.size ≤ limits.maxSteps
  depth_le : ∀ (i : Nat) (e : Entry), t.entries[i]? = some e →
    e.frames.length ≤ limits.maxStackSize

namespace Trace.Records

variable {t : Trace} {base : List Frame} {plans : List CallPlan} {limits : PlayerLimits}

theorem size_eq (h : t.Records base plans limits) :
    t.entries.size = 2 * CallPlan.totalSize plans + 2 := by
  have hlength := congrArg List.length h.frames_eq
  rw [List.length_map, List.length_cons, List.length_cons, CallPlan.length_walkAll] at hlength
  exact hlength

theorem frames_shot (h : t.Records base plans limits) {q : Nat} {stack : List Frame}
    (hq : (base :: base :: CallPlan.walkAll base plans)[q]? = some stack) :
    (t.shot q).frames = stack := by
  rw [← h.frames_eq, List.getElem?_map, Array.getElem?_toList] at hq
  obtain ⟨e, he, hframes⟩ := Option.map_eq_some_iff.mp hq
  unfold Trace.shot
  rw [he]
  exact hframes

theorem no_failure (h : t.Records base plans limits) (p : Nat) (hp : p < t.entries.size) :
    t.failure? limits p = none := by
  have hfits : t.Fits limits := ⟨h.no_error, h.size_le, h.depth_le⟩
  exact hfits.no_failure p hp

/-- Every entry but the first is a stop. -/
theorem reachedStops_eq (h : t.Records base plans limits) {ceiling : Nat} (hc : 0 < ceiling) :
    t.reachedStops limits ceiling = List.range' 1 (t.entries.size - 1) := by
  have hsize := h.size_eq
  rw [Trace.reachedStops_of_no_failure hc h.no_failure]
  refine Trace.stopsFrom_of_linewise hc ?_ 0 (by omega)
  intro p hp
  have hget : t.entries[p]? = some t.entries[p] := Array.getElem?_eq_getElem (by omega)
  have hnext : t.entries[p + 1]? = some t.entries[p + 1] := Array.getElem?_eq_getElem hp
  unfold Trace.onOtherLine Trace.opensRun Trace.line?
  rw [hget, hnext]
  have hline := h.has_line (p + 1) _ hnext
  have hdiffer := h.lines_differ p _ _ hget hnext
  show (t.entries[p + 1].line.isSome && t.entries[p + 1].line != t.entries[p].line) = true
  rw [hline, Bool.true_and, bne_iff_ne]
  exact fun he => hdiffer he.symm

end Trace.Records

/-- Copies of entries, one after the other, are what the session shows of them. -/
theorem Trace.copies_eq_map_shot {t : Trace} {stops : List Nat}
    (h : ∀ q ∈ stops, q < t.entries.size) : t.copies stops = stops.map t.shot := by
  unfold copies
  rw [← List.filterMap_eq_map]
  refine List.filterMap_congr ?_
  intro q hq
  have hlt := h q hq
  have hget : t.entries[q]? = some t.entries[q] := Array.getElem?_eq_getElem hlt
  show t.entries[q]?.map (·.copy q) = some ((t.entries[q]?.getD .blank).copy q)
  rw [hget]
  rfl

/-- A session that has played such a record to its end shows the planned calls. -/
theorem Session.IsPlaying.forest_eq {c : Config} {t : Trace} {s : Session} {base : List Frame}
    {plans : List CallPlan} {captured : List Snapshot} (hc : 0 < c.maxMicroSteps)
    (hrecords : t.Records base plans c.player) (h : IsPlaying c t s captured)
    (hcompleted : s.playback.status.completed = true) :
    s.forest = CallPlan.trees t.returned 0 0 2 plans := by
  obtain ⟨stops, hprogress, hcopies⟩ := h.playing.progress
  have hsize := hrecords.size_eq
  have hstops : stops = List.range' 1 (2 * CallPlan.totalSize plans + 1) := by
    rw [hprogress.eq_of_isDone (h.done_of_completed hcompleted), hrecords.reachedStops_eq hc, hsize]
    rfl
  -- what was captured are the entries from the second one on
  have hshots : captured.map Snapshot.bare = stops.map t.shot := by
    rw [hcopies]
    refine Trace.copies_eq_map_shot ?_
    intro q hq
    rw [hstops, List.mem_range'_1] at hq
    omega
  have hgathered : s.execution.gathered
      = Gathered.nothing.observePlaces t.shot 1 (2 * CallPlan.totalSize plans + 1) := by
    rw [h.playing.gathered, ← Gathered.ofSnapshots_bare, hshots, hstops]
    unfold Gathered.ofSnapshots Gathered.observePlaces
    rw [List.foldl_map]
  have htracker : s.execution.tracker = s.execution.gathered.tracker := rfl
  unfold Session.forest
  rw [htracker, hgathered]
  refine CallPlan.forest_of_walkAll (fun q => rfl) (hrecords.frames_shot rfl) ?_
  intro k stack hk
  refine hrecords.frames_shot ?_
  have hplace : 1 + 1 + k = k + 2 := by omega
  rw [hplace]
  exact hk

/-- Take any valid configuration, any plan of calls, any base call stack and any record of the plan
that keeps to the limits of the configuration, in any document. Played by itself in a new session, it
completes, and the session then shows the forest of the plan. And whatever else was done to the session
before, however the run was started and whatever was done while it was played, but for a reset: if the
session is complete, it shows the forest of the plan. -/
theorem forest_of_records {c : Config} {t : Trace} {base : List Frame} {plans : List CallPlan}
    {s : Session} {source : String} (hnew : Session.new? c = .ok s)
    (hread : Trace.read source = .ok t) (hrecords : t.Records base plans c.player) :
    let planned := CallPlan.trees t.returned 0 0 2 plans
    let played := (s.setSource source).1.start.1.await none
    (played.2 = true ∧ played.1.playback.status.completed = true ∧ played.1.forest = planned)
    ∧ ∀ (before : List Operation) (op : Operation) (after : List Operation),
        (s.run before).execution.started = false → (s.run before).source = source →
        op.starts = true → .reset ∉ after →
        (s.run (before ++ op :: after)).playback.status.completed = true →
        (s.run (before ++ op :: after)).forest = planned := by
  intro planned played
  obtain ⟨hidle, hc⟩ := Session.isIdle_of_new? hnew
  refine ⟨?_, ?_⟩
  · -- played by itself
    obtain ⟨⟨captured, hstarted⟩, hended, hcompleted⟩ :=
      Session.completes_alone hnew hread hrecords.no_failure
    obtain ⟨captured', hplayed⟩ := hstarted.await hc none
    exact ⟨hended, hcompleted, hplayed.forest_eq hc hrecords hcompleted⟩
  · -- played in any other way: the journal keeps the invariant up to the completion
    intro before op after hstarted hsource hop hafter hcompleted
    have hplaying := ((Session.isIdle_of_not_started hnew hstarted).journal_perform hc
      (by rw [hsource]; exact hread) hop).journal_run hc hafter
    have hsession : (((Journal.opened (s.run before)).perform op).run after).session
        = s.run (before ++ op :: after) := by
      rw [Journal.run_session, Journal.perform_session]
      unfold Session.run
      rw [List.foldl_append]
      rfl
    rw [hsession] at hplaying
    exact hplaying.forest_eq hc hrecords hcompleted

/-! ## A recursive function -/

/-- A frame of the recursive function. -/
def Frame.recursive (argument : String) : Frame := ⟨"f", [argument], none, none⟩

/-- A call of the function that calls it twice more. -/
def CallPlan.recursion : CallPlan :=
  .call (.recursive "2") rfl [.call (.recursive "1") rfl [], .call (.recursive "0") rfl []]

/-- A record of that call, which goes to and fro between two lines. -/
def Trace.recursion : Trace :=
  let calls (line : Nat) (arguments : List String) : Entry :=
    ⟨some line, some 0, some "", arguments.map .recursive, [], none⟩
  ⟨#[.ofLine 1, .ofLine 2, calls 1 ["2"], calls 2 ["1", "2"], calls 1 ["2"], calls 2 ["0", "2"],
    calls 1 ["2"], .ofLine 2]⟩

/-- A document of it. -/
def Trace.recursionText : String :=
  "[[[1],[2],[1,0,\"\",[[\"f\",[\"2\"]]]],[2,0,\"\",[[\"f\",[\"1\"]],[\"f\",[\"2\"]]]],"
    ++ "[1,0,\"\",[[\"f\",[\"2\"]]]],[2,0,\"\",[[\"f\",[\"0\"]],[\"f\",[\"2\"]]]],"
    ++ "[1,0,\"\",[[\"f\",[\"2\"]]]],[2]]]"

set_option maxRecDepth 2000 in
theorem Trace.read_recursionText : Trace.read Trace.recursionText = .ok .recursion :=
  read_of_decode rfl rfl rfl

theorem Trace.records_recursion : Trace.recursion.Records [] [.recursion] .standard where
  frames_eq := rfl
  has_line i e he := by
    obtain ⟨hi, rfl⟩ := Array.getElem?_eq_some_iff.mp he
    clear he
    revert i
    decide
  lines_differ i e e' he he' := by
    obtain ⟨hi, rfl⟩ := Array.getElem?_eq_some_iff.mp he
    obtain ⟨hi', rfl⟩ := Array.getElem?_eq_some_iff.mp he'
    clear he he'
    revert i
    decide
  no_error i e he := by
    obtain ⟨hi, rfl⟩ := Array.getElem?_eq_some_iff.mp he
    clear he
    revert i
    decide
  size_le := by decide
  depth_le i e he := by
    obtain ⟨hi, rfl⟩ := Array.getElem?_eq_some_iff.mp he
    clear he
    revert i
    decide

/-- The calls of the recursive function are told apart, although all have the same name. -/
theorem forest_of_recursion :
    let played := (Session.standard.setSource Trace.recursionText).1.start.1.await none
    Session.new? .standard = .ok .standard ∧ Trace.read Trace.recursionText = .ok .recursion
    ∧ Trace.recursion.Records [] [.recursion] Config.standard.player
    ∧ played.1.playback.status.completed = true
    ∧ played.1.forest = CallPlan.trees Trace.recursion.returned 0 0 2 [.recursion] := by
  have hnew : Session.new? .standard = .ok .standard := by rfl
  have hread := Trace.read_recursionText
  obtain ⟨⟨-, hcompleted, hforest⟩, -⟩ := forest_of_records hnew hread Trace.records_recursion
  exact ⟨hnew, hread, Trace.records_recursion, hcompleted, hforest⟩

end Retrace
