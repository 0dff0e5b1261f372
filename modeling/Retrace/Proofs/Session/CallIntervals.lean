import Retrace.Proofs.CallTree.Intervals
import Retrace.Proofs.Session.Reconstruction
/-!
# Calls nest or follow each other

The intervals of the calls of a tracker are laminar where steps never go back: of two calls the one lasts
within the other, or they are apart. The calls and returns of a session are each read off a snapshot of
its own, and later snapshots have later steps. So there no two of them are seen at the same step, and the
intervals are laminar in the strict sense (`calls_laminar`).
-/

namespace Retrace

open Session (Operation)

/-- How any two calls lie after some changes that are seen at steps ordered by `R`: the earlier call encloses
the later one if it was outstanding when that was made, and only then; and their intervals lie
accordingly. -/
def Laminar (R : Nat → Nat → Prop) (events : List CallEvent) : Prop :=
  let t := Tracker.empty.followAll events
  ∀ (a b : Nat) (m n : CallNode), a < b → t.nodes[a]? = some m → t.nodes[b]? = some n →
    (∃ before c after, events = before ++ .enter c :: after
      ∧ (Tracker.empty.followAll before).totalCalls = b
      ∧ (t.Encloses a b ↔ a ∈ (Tracker.empty.followAll before).outstanding))
    ∧ t.Laid R a b m n

theorem laminar_of_ordered {R : Nat → Nat → Prop} {events : List CallEvent}
    (hordered : (events.map CallEvent.step).Pairwise R) : Laminar R events := by
  unfold Laminar
  intro t a b m n hab hm hn
  have hb : b < t.totalCalls := (Array.getElem?_eq_some_iff.mp hn).choose
  refine ⟨?_, (Tracker.Timed.of_followAll hordered).laid a b m n hab hm hn⟩
  obtain ⟨before, c, after, hsplit, htotal⟩ := Tracker.exists_made hb
  have hencloses := Tracker.encloses_iff_outstanding before c after a
  rw [← hsplit, htotal] at hencloses
  exact ⟨before, c, after, hsplit, htotal, hencloses⟩

/-! ## Sessions -/

namespace Snapshot

variable {s : Snapshot}

theorem step_of_innermostCall? {c : Call} (h : s.innermostCall? = some c) :
    c.step = s.position.stepNumber := by
  unfold innermostCall? at h
  split at h
  next => cases h
  next f _ =>
    split at h
    next =>
      injection h with h
      rw [← h]
    next => cases h

theorem step_of_event? {previous : Option Nat} {e : CallEvent}
    (h : (s.transition previous).event? = some e) : e.step = s.position.stepNumber := by
  rcases event?_cases h with ⟨c, hcall, rfl⟩ | rfl
  · exact step_of_innermostCall? hcall
  · rfl

end Snapshot

/-- Every change is seen at the step of a snapshot of its own. -/
theorem Baseline.steps_shown_sublist (b : Baseline) (snapshots : List Snapshot) :
    ((b.shown snapshots).map CallEvent.step).Sublist (snapshots.map (·.position.stepNumber)) := by
  induction snapshots generalizing b with
  | nil => exact .slnil
  | cons s snapshots ih =>
    unfold shown
    rw [List.map_append, List.map_cons]
    have hlater := ih (b.observe s).1
    cases he : (b.observe s).2.event? with
    | none => exact hlater.cons _
    | some e =>
      rw [← Snapshot.step_of_event? he]
      exact hlater.cons_cons e.step

/-- **The intervals of calls are laminar.** Let a tracker be told of any calls and returns whose steps never
go back, and take two of its calls. The earlier one encloses the later one if and only if it was
outstanding when that was made. Then it began no later; and if it has returned, so has the later one, and
no later. Otherwise it has returned, no later than the other one began.

Whatever is done with a session, its tracker has followed the calls and returns shown by the snapshots that
were captured since the last reset, whose steps are increasing; so there the same holds with every "no
later" read as "earlier". -/
theorem calls_laminar :
    (∀ events : List CallEvent, (events.map CallEvent.step).Pairwise (· ≤ ·) →
      Laminar (· ≤ ·) events)
    ∧ ∀ {c : Config} {s : Session}, Session.new? c = .ok s → ∀ ops : List Operation,
      let l := (Ledger.opened s).run ops
      let events := Baseline.none.shown l.captured
      l.session = s.run ops
      ∧ l.session.execution.tracker = Tracker.empty.followAll events
      ∧ (events.map CallEvent.step).Pairwise (· < ·)
      ∧ Laminar (· < ·) events := by
  refine ⟨fun events hordered => laminar_of_ordered hordered, ?_⟩
  intro c s hnew ops l events
  obtain ⟨-, hc⟩ := Session.isIdle_of_new? hnew
  have hkept : Ledger.Kept c l := (Ledger.kept_opened hnew).run hc ops
  have hordered : (events.map CallEvent.step).Pairwise (· < ·) :=
    (hkept.increasing hc).sublist (Baseline.none.steps_shown_sublist l.captured)
  refine ⟨Ledger.run_session _ ops, ?_, hordered, laminar_of_ordered hordered⟩
  have htracker : l.session.execution.tracker = (Gathered.ofSnapshots l.captured).tracker :=
    congrArg Gathered.tracker hkept.gathered_eq.1
  exact htracker.trans (Gathered.tracker_ofSnapshots_eq_followAll l.captured)

/-- A document of a trace in which a function calls another one. -/
def Trace.nestedText : String :=
  "[[[1],[2],[3,0,\"\",[[\"f\"]]],[4,0,\"\",[[\"g\"],[\"f\"]]],[3,0,\"\",[[\"f\"]]],[2]]]"

/-- Where `g` is called by `f` at the step of that call, and `h` when `f` returns, `g` lies within `f`, and
`h` begins when `f` is over. In a session that plays a call within another one, the inner call lies
between the steps of the outer one. -/
theorem laminar_of_nested :
    let events := [.enter (.plain "f" 1), .enter (.plain "g" 1), .leave none 2, .leave none 2,
      .enter (.plain "h" 2)]
    let t := Tracker.empty.followAll events
    let ops := [.setSource Trace.nestedText, .forward, .forward, .forward, .forward, .forward]
    let u := ((Ledger.opened .standard).run ops).session.execution.tracker
    (events.map CallEvent.step).Pairwise (· ≤ ·)
    ∧ Session.new? .standard = .ok .standard
    ∧ (∃ f g : CallNode, t.nodes[0]? = some f ∧ t.nodes[1]? = some g ∧ f.startStep ≤ g.startStep)
    ∧ (∃ f h : CallNode, t.nodes[0]? = some f ∧ t.nodes[2]? = some h
      ∧ ∃ e, f.endStep = some e ∧ e ≤ h.startStep)
    ∧ ∃ m n : CallNode, u.nodes[0]? = some m ∧ u.nodes[1]? = some n ∧ m.startStep < n.startStep
      ∧ ∃ e e', n.endStep = some e ∧ m.endStep = some e' ∧ e < e' := by
  intro events t ops u
  have hordered : (events.map CallEvent.step).Pairwise (· ≤ ·) := by decide
  have hnew : Session.new? .standard = .ok .standard := by rfl
  have hsize : t.nodes.size = 3 := by decide +kernel
  obtain ⟨f, hf⟩ : ∃ f, t.nodes[0]? = some f := ⟨_, Array.getElem?_eq_getElem (by omega)⟩
  obtain ⟨g, hg⟩ : ∃ g, t.nodes[1]? = some g := ⟨_, Array.getElem?_eq_getElem (by omega)⟩
  obtain ⟨h, hh⟩ : ∃ h, t.nodes[2]? = some h := ⟨_, Array.getElem?_eq_getElem (by omega)⟩
  have hinside : t.Encloses 0 1 := .single (by decide +kernel)
  have houtside : ¬t.Encloses 0 2 := by
    have hout : 0 ∉ (Tracker.empty.followAll (events.take 4)).outstanding := by decide +kernel
    exact (Tracker.encloses_iff_outstanding (events.take 4) (.plain "h" 2) [] 0).not.mpr hout
  have hplayed : u.nodes[0]?.map (·.hasReturned) = some true ∧ u.Made 0 1 := by decide +kernel
  obtain ⟨hreturned, hmade⟩ := hplayed
  have hnested : u.Encloses 0 1 := .single hmade
  obtain ⟨m, hm, hr⟩ := Option.map_eq_some_iff.mp hreturned
  obtain ⟨n, hn⟩ := hnested.exists_node
  obtain ⟨hplain, hsession⟩ := calls_laminar
  have hlaid := hplain events hordered
  obtain ⟨-, htracker, -, hstrict⟩ := hsession hnew ops
  unfold Laminar at hstrict
  rw [← htracker] at hstrict
  have hu := hstrict 0 1 m n (by decide) hm hn
  refine ⟨hordered, hnew, ⟨f, g, hf, hg, ?_⟩, ⟨f, h, hf, hh, ?_⟩, m, n, hm, hn, ?_, ?_⟩
  · exact (hlaid 0 1 f g (by decide) hf hg).2.begins hinside
  · exact ((hlaid 0 2 f h (by decide) hf hh).2.apart houtside).2
  · exact hu.2.begins hnested
  · exact (hu.2.ends hnested hr).2

end Retrace
