import Retrace.Proofs.CallTree.Arena
import Retrace.Proofs.Session.Gathered
/-!
# Frames that are no calls

Calls are read off named frames only, returns off the depth of the stack alone. So a frame without a
name that comes and goes shows no call, but it does show a return: that is all it adds to what the
snapshots show (`Baseline.shown_unnamed`).

The return is one of the innermost outstanding call, whichever that is. With none outstanding it is
ignored, and the frame leaves no trace; otherwise it closes a call that is still on the stack
(`closes_call_on_stack`). The calls that are made, their names, arguments and order, are the same with
the frame as without it (`follow_unnamed`).
-/

namespace Retrace

/-! ## What snapshots show -/

/-- The changes of the call tree that some snapshots show, one after the other. -/
def Baseline.shown (b : Baseline) : List Snapshot → List CallEvent
  | [] => []
  | s :: later => (b.observe s).2.event?.toList ++ (b.observe s).1.shown later

/-- The baseline after some snapshots. -/
def Baseline.after (b : Baseline) (snapshots : List Snapshot) : Baseline :=
  snapshots.foldl (fun b s => (b.observe s).1) b

/-- A tracker after several changes of the call tree. -/
def Tracker.followAll (t : Tracker) (changes : List CallEvent) : Tracker := changes.foldl follow t

theorem Baseline.after_concat (b : Baseline) (snapshots : List Snapshot) (s : Snapshot) :
    b.after (snapshots ++ [s]) = ⟨some s.depth⟩ := by
  unfold after
  rw [List.foldl_append]
  rfl

theorem Gathered.baseline_foldl (g : Gathered) (snapshots : List Snapshot) :
    (snapshots.foldl observe g).baseline = g.baseline.after snapshots := by
  induction snapshots generalizing g with
  | nil => rfl
  | cons s snapshots ih => exact ih (g.observe s)

/-- What is gathered from some snapshots follows what they show. -/
theorem Gathered.tracker_foldl (g : Gathered) (snapshots : List Snapshot) :
    (snapshots.foldl observe g).tracker = g.tracker.followAll (g.baseline.shown snapshots) := by
  induction snapshots generalizing g with
  | nil => rfl
  | cons s snapshots ih =>
    have hfollowed : (g.observe s).tracker
        = g.tracker.followAll (g.baseline.observe s).2.event?.toList := by
      unfold observe
      simp only
      cases (g.baseline.observe s).2.event? <;> rfl
    show (snapshots.foldl observe (g.observe s)).tracker = _
    rw [ih, hfollowed]
    exact List.foldl_append.symm

theorem Gathered.tracker_ofSnapshots_eq_followAll (snapshots : List Snapshot) :
    (ofSnapshots snapshots).tracker = Tracker.empty.followAll (Baseline.none.shown snapshots) :=
  tracker_foldl .nothing snapshots

/-- What is gathered from a last snapshot on depends on its depth and on the calls so far. -/
theorem Gathered.tracker_append (before after : List Snapshot) (last : Snapshot) :
    (ofSnapshots (before ++ [last] ++ after)).tracker
      = (ofSnapshots (before ++ [last])).tracker.followAll
          ((Baseline.mk (some last.depth)).shown after) := by
  have hbaseline : (ofSnapshots (before ++ [last])).baseline = ⟨some last.depth⟩ := by
    rw [ofSnapshots, baseline_foldl, Baseline.after_concat]
  rw [← hbaseline]
  show ((before ++ [last] ++ after).foldl observe nothing).tracker = _
  rw [List.foldl_append]
  exact tracker_foldl _ after

/-! ## The calls made -/

/-- The call as it was made. -/
def CallNode.call (n : CallNode) : Call := ⟨n.functionName, n.arguments, n.startStep, n.line⟩

/-- The call that a change of the call tree makes, if it makes one. -/
def CallEvent.call? : CallEvent → Option Call
  | enter c => some c
  | leave _ _ => none

namespace Tracker

/-- The calls made so far, in their order. -/
def calls (t : Tracker) : List Call := t.nodes.toList.map CallNode.call

theorem calls_modify (nodes : Array CallNode) (i : Nat) {f : CallNode → CallNode}
    (hf : ∀ n, (f n).call = n.call) :
    (nodes.modify i f).toList.map CallNode.call = nodes.toList.map CallNode.call := by
  apply List.ext_getElem?
  intro k
  simp only [List.getElem?_map, Array.getElem?_toList, Array.getElem?_modify]
  split
  · cases nodes[k]? with
    | none => rfl
    | some n => exact congrArg some (hf n)
  · rfl

/-- Only a call adds to the calls made. -/
theorem calls_follow (t : Tracker) (e : CallEvent) :
    (t.follow e).calls = t.calls ++ e.call?.toList := by
  cases e with
  | enter c =>
    have hpushed : (t.nodes.push (.ofCall t.nodes.size t.outstanding.length t.outstanding.head?
        c)).toList.map CallNode.call = t.calls ++ [c] := by
      rw [Array.toList_push, List.map_append]
      rfl
    show (t.enter c).1.calls = t.calls ++ [c]
    rw [← hpushed]
    unfold enter
    cases t.outstanding.head? with
    | none => rfl
    | some caller => exact calls_modify _ caller fun _ => rfl
  | leave value step =>
    show (t.leave value step).1.calls = t.calls ++ []
    rw [List.append_nil]
    unfold leave
    cases t.outstanding with
    | nil => rfl
    | cons id callers =>
      have hreturned := calls_modify t.nodes id (f := (·.returning value step)) fun _ => rfl
      cases callers with
      | nil => exact hreturned
      | cons caller _ =>
        have hresumed := calls_modify (t.nodes.modify id (·.returning value step)) caller
          (f := CallNode.resuming) fun _ => rfl
        exact hresumed.trans hreturned

theorem calls_followAll (t : Tracker) (changes : List CallEvent) :
    (t.followAll changes).calls = t.calls ++ changes.filterMap CallEvent.call? := by
  induction changes generalizing t with
  | nil => exact (List.append_nil _).symm
  | cons e changes ih =>
    show ((t.follow e).followAll changes).calls = _
    rw [ih, calls_follow, List.append_assoc]
    cases e <;> rfl

end Tracker

/-! ## A frame that comes and goes -/

section Unnamed

variable {frame : Frame} {last inner outer : Snapshot}

/-- The frame is entered, which is no call, and left again, which is a return. -/
theorem Baseline.shown_unnamed (hunnamed : frame.isNamedCall = false)
    (hinner : inner.frames = frame :: last.frames) (houter : outer.frames = last.frames)
    (after : List Snapshot) :
    (Baseline.mk (some last.depth)).shown ([inner, outer] ++ after)
      = .leave outer.returnValue? outer.position.stepNumber
          :: (Baseline.mk (some last.depth)).shown after := by
  have hdeeper : inner.depth = last.depth + 1 := congrArg List.length hinner
  have hdepth : outer.depth = last.depth := congrArg List.length houter
  have hcall : inner.innermostCall? = Option.none := by
    unfold Snapshot.innermostCall? Snapshot.innermostFrame?
    rw [hinner]
    exact if_neg (by simp [hunnamed])
  have hentered : (Baseline.mk (some last.depth)).observe inner
      = (⟨some inner.depth⟩, .entered Option.none) := by
    unfold observe Snapshot.transition
    rw [hcall]
    simp [hdeeper]
  have hreturned : (Baseline.mk (some inner.depth)).observe outer
      = (⟨some last.depth⟩, .returned outer.returnValue? outer.position.stepNumber) := by
    unfold observe Snapshot.transition
    simp [hdeeper, hdepth]
  show _ ++ (_ ++ shown _ after) = _
  rw [hentered, hreturned]
  rfl

/-- A frame without a name that comes and goes after some snapshot adds one return to what is followed,
and nothing else. It makes no call and keeps none from being made; and if no call is outstanding at
that place, it changes nothing at all. -/
theorem follow_unnamed (hunnamed : frame.isNamedCall = false)
    (hinner : inner.frames = frame :: last.frames) (houter : outer.frames = last.frames)
    (before after : List Snapshot) :
    let here := (Gathered.ofSnapshots (before ++ [last])).tracker
    let later := (Baseline.mk (some last.depth)).shown after
    let without := (Gathered.ofSnapshots (before ++ [last] ++ after)).tracker
    let tracker := (Gathered.ofSnapshots (before ++ [last] ++ ([inner, outer] ++ after))).tracker
    (without = here.followAll later ∧ tracker
      = (here.leave outer.returnValue? outer.position.stepNumber).1.followAll later) ∧
    tracker.calls = without.calls ∧
    (here.outstanding = [] → tracker = without ∧ tracker.forest = without.forest) := by
  intro here later without tracker
  have hwithout : without = here.followAll later := Gathered.tracker_append before after last
  have htracker : tracker
      = (here.leave outer.returnValue? outer.position.stepNumber).1.followAll later := by
    show (Gathered.ofSnapshots _).tracker = _
    rw [Gathered.tracker_append, Baseline.shown_unnamed hunnamed hinner houter]
    rfl
  refine ⟨⟨hwithout, htracker⟩, ?_, fun hnone => ?_⟩
  · -- both make the calls of `later` after those made so far
    have hcalls := here.calls_follow (.leave outer.returnValue? outer.position.stepNumber)
    have hkept : (here.leave outer.returnValue? outer.position.stepNumber).1.calls = here.calls :=
      hcalls.trans (List.append_nil _)
    rw [hwithout, htracker, Tracker.calls_followAll, Tracker.calls_followAll, hkept]
  · have hsame : tracker = without := by
      rw [htracker, hwithout, Tracker.leave_of_nil hnone]
    exact ⟨hsame, congrArg Tracker.forest hsame⟩

end Unnamed

/-- A snapshot of a program that shows nothing but its call stack. -/
def Snapshot.onStack (names : List String) : Snapshot :=
  ⟨⟨0, none, none, none⟩, [], names.map fun name => ⟨name, [], none, none⟩, none⟩

/-- A frame of top-level code comes and goes before the only call is made. -/
theorem follow_unnamed_outside :
    let call : List Snapshot := [.onStack ["f"], .onStack []]
    let tracker := (Gathered.ofSnapshots
      ([.onStack []] ++ ([.onStack ["(global)"], .onStack []] ++ call))).tracker
    (Frame.isNamedCall ⟨"(global)", [], none, none⟩ = false ∧
      (Gathered.ofSnapshots [.onStack []]).tracker.outstanding = []) ∧
    tracker.forest = (Gathered.ofSnapshots ([.onStack []] ++ call)).tracker.forest ∧
    tracker.forest.map (fun t => (t.call.name, t.call.hasReturned)) = [("f", true)] := by
  intro call tracker
  have hglobal : Frame.isNamedCall ⟨"(global)", [], none, none⟩ = false := by decide
  have hinner : (Snapshot.onStack ["(global)"]).frames
      = ⟨"(global)", [], none, none⟩ :: (Snapshot.onStack []).frames := rfl
  have houter : (Snapshot.onStack []).frames = (Snapshot.onStack []).frames := rfl
  obtain ⟨-, -, hforest⟩ := follow_unnamed hglobal hinner houter [] call
  exact ⟨⟨hglobal, rfl⟩, (hforest rfl).2, rfl⟩

/-- While a call is outstanding, a frame without a name that comes and goes closes it: the call is
shown as returned, and as active no more, though it is still on the stack. -/
theorem closes_call_on_stack :
    let plain := (Gathered.ofSnapshots [.onStack [], .onStack ["f"]]).tracker
    let mixed := (Gathered.ofSnapshots
      [.onStack [], .onStack ["f"], .onStack ["", "f"], .onStack ["f"]]).tracker
    Frame.isNamedCall ⟨"", [], none, none⟩ = false ∧
    plain.forest.map (fun t => (t.call.name, t.call.hasReturned, t.call.isActive))
      = [("f", false, true)] ∧
    mixed.forest.map (fun t => (t.call.name, t.call.hasReturned, t.call.isActive))
      = [("f", true, false)] ∧
    mixed.forest ≠ plain.forest := by
  intro plain mixed
  have hplain : plain.forest.map (fun t => (t.call.name, t.call.hasReturned, t.call.isActive))
      = [("f", false, true)] := rfl
  have hmixed : mixed.forest.map (fun t => (t.call.name, t.call.hasReturned, t.call.isActive))
      = [("f", true, false)] := rfl
  refine ⟨by decide, hplain, hmixed, fun hsame => ?_⟩
  rw [hsame, hplain] at hmixed
  exact nomatch hmixed

end Retrace
