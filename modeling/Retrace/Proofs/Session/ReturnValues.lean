import Retrace.Proofs.CallTree.Preorder
import Retrace.Proofs.CallTree.ReturnValue
import Retrace.Proofs.Session.Observers
/-!
# The return values that a session shows

What observers are told a call returned, and what the call tree shows that it returned, is what was guessed
from the captured snapshot at which the return was seen (`told_return`, `shown_return`). So where a guess
may come from settles where any return value of a session comes from (`return_values_supplied`): a variable
of the innermost scope that is no function, or one that is found by its name and may be a function.
-/

namespace Retrace

open Json (Value)
open Session (Operation)

/-- Every call and return that is told of captured snapshots is read off one of them. -/
theorem Snapshot.mem_of_call_mem_script {e : CallEvent} {captured : List Snapshot}
    {previous : Option Nat} (h : .call e ∈ script previous captured) :
    ∃ shot ∈ captured, ∃ before, (shot.transition before).event? = some e := by
  induction captured generalizing previous with
  | nil => cases h
  | cons shot captured ih =>
    rcases List.mem_append.mp h with hhere | hlater
    · -- after the snapshot itself comes the change that is read off it
      rcases List.mem_cons.mp hhere with hsnapshot | hcall
      · cases hsnapshot
      · obtain ⟨e', he', hsame⟩ := List.mem_map.mp hcall
        injection hsame with hsame
        rw [← hsame]
        exact ⟨shot, List.mem_cons_self, previous, Option.mem_toList.mp he'⟩
    · obtain ⟨shot', hshot, hevent⟩ := ih hlater
      exact ⟨shot', List.mem_cons_of_mem shot hshot, hevent⟩

namespace Transcript

variable {c : Config} {bounds : DelayBounds} {t : Transcript}

/-- Whatever is done with a session, its transcript is faithful. -/
theorem exists_faithful_run {s : Session} (hnew : Session.new? c = .ok s) (ops : List Operation) :
    ∃ bounds, Faithful c bounds ((opened s).run ops) := by
  obtain ⟨-, hc⟩ := Session.isIdle_of_new? hnew
  obtain ⟨bounds, heq⟩ := Session.eq_of_new? hnew
  have hfirst : Faithful c bounds (opened s) :=
    ⟨Ledger.kept_opened hnew, heq ▸ Session.configured_new c bounds, rfl, rfl⟩
  exact ⟨bounds, hfirst.run hc ops⟩

/-- A return that was told of is read off a captured snapshot. -/
theorem Faithful.told_return (h : Faithful c bounds t) {value : Option Value} {step : Nat}
    (htold : .leave value step ∈ t.told.filterMap Event.call?) :
    ∃ shot ∈ t.captured, step = shot.position.stepNumber ∧ value = shot.returnValue? := by
  rw [h.calls, h.live] at htold
  obtain ⟨e, he, hcall⟩ := List.mem_filterMap.mp htold
  cases e with
  | call e =>
    injection hcall with hcall
    rw [hcall] at he
    obtain ⟨shot, hshot, before, hevent⟩ := Snapshot.mem_of_call_mem_script he
    obtain ⟨hvalue, hstep⟩ := Snapshot.value_of_event? hevent
    exact ⟨shot, hshot, hstep, hvalue⟩
  | _ => cases hcall

/-- The tracker has followed what was told. -/
theorem Faithful.tracker_eq (h : Faithful c bounds t) :
    t.session.execution.tracker = Tracker.empty.followAll (t.told.filterMap Event.call?) := by
  rw [h.calls, h.live]
  exact (congrArg Gathered.tracker h.kept.gathered_eq.1).trans
    (Gathered.tracker_ofSnapshots t.captured)

/-- What a call of the tree shows to have returned is read off the captured snapshot at whose step it
returned. -/
theorem Faithful.shown_return (h : Faithful c bounds t) {n : CallNode}
    (hn : n ∈ t.session.execution.tracker.nodes) :
    (n.hasReturned = true → ∃ shot ∈ t.captured, n.endStep = some shot.position.stepNumber
      ∧ n.returnValue = shot.returnValue?
      ∧ n.returnText = some (valueText .forCallTree shot.returnValue?))
    ∧ (n.hasReturned = false → n.returnValue = none ∧ n.returnText = none) := by
  obtain ⟨i, hi⟩ := Array.mem_iff_getElem?.mp hn
  rw [h.tracker_eq] at hi
  have hreturns := Tracker.returns_followAll _ i n hi
  refine ⟨fun hreturned => ?_, hreturns.outstanding⟩
  obtain ⟨step, htold, hend, htext⟩ := hreturns.returned hreturned
  obtain ⟨shot, hshot, hstep, hvalue⟩ := h.told_return htold
  rw [hstep] at hend
  rw [hvalue] at htext
  exact ⟨shot, hshot, hend, hvalue, htext⟩

/-- The views of the tree are those of its calls. -/
theorem Faithful.view_of_forest (h : Faithful c bounds t) {view : CallTree}
    (hview : view ∈ CallTree.preorderAll t.session.execution.tracker.forest) :
    ∃ n ∈ t.session.execution.tracker.nodes, view.call = n.summary := by
  have htracker := h.tracker_eq
  rw [Tracker.followAll_eq_run] at htracker
  have hw := Tracker.wellFormed_empty.run ((t.told.filterMap Event.call?).map CallEvent.operation)
  have ho := Tracker.callOrdered_empty.run Tracker.wellFormed_empty
    ((t.told.filterMap Event.call?).map CallEvent.operation)
  rw [← htracker] at hw ho
  have hmem : view.call ∈ t.session.execution.tracker.nodes.toList.map CallNode.summary := by
    rw [← Tracker.calls_forest hw ho]
    exact List.mem_map_of_mem hview
  obtain ⟨n, hn, hsummary⟩ := List.mem_map.mp hmem
  exact ⟨n, Array.mem_toList_iff.mp hn, hsummary.symm⟩

end Transcript

open Transcript in
/-- **Where return values come from.** The value guessed from a snapshot is held by a variable of its
innermost scope that is no function, or by a function that is found by its name: of the conventional
names its name is the likeliest that gives a value, and it is the first variable so named. Whatever is
found by its name is the value. None is guessed exactly if every variable is a function or has no value,
and none is found by its name.

And whatever is done with a session, what observers were told since the last reset that a call returned,
what the tracker knows that it returned and what the call tree shows that it returned are all guessed
from the captured snapshot at whose step the return was seen. -/
theorem return_values_supplied {c : Config} {s : Session} (hnew : Session.new? c = .ok s)
    (ops : List Operation) :
    let t := (opened s).run ops
    let tracker := t.session.execution.tracker
    (∀ shot : Snapshot,
      (∀ v, shot.returnValue? = some v → shot.Supplies v)
      ∧ (∀ x, shot.ChosenByName x → shot.returnValue? = x.value)
      ∧ (shot.returnValue? = none ↔
          (∀ x ∈ shot.innermostVariables, x.kind = .function ∨ x.value = none)
          ∧ ∀ x, ¬shot.ChosenByName x))
    ∧ t.session = s.run ops
    ∧ (∀ value step, .call (.leave value step) ∈ t.told →
        ∃ shot ∈ t.captured, step = shot.position.stepNumber ∧ value = shot.returnValue?)
    ∧ (∀ n ∈ tracker.nodes,
        (n.hasReturned = true → ∃ shot ∈ t.captured, n.endStep = some shot.position.stepNumber
          ∧ n.returnValue = shot.returnValue?)
        ∧ (n.hasReturned = false → n.returnValue = none))
    ∧ ∀ view ∈ CallTree.preorderAll tracker.forest,
        (view.call.hasReturned = true → ∃ shot ∈ t.captured,
          view.call.endStep = some shot.position.stepNumber
          ∧ view.call.returnValue = some (valueText .forCallTree shot.returnValue?))
        ∧ (view.call.hasReturned = false → view.call.returnValue = none) := by
  intro t tracker
  obtain ⟨bounds, h⟩ := exists_faithful_run hnew ops
  have hsession : t.session = s.run ops := by
    show (Transcript.run _ ops).ledger.session = _
    rw [run_ledger, Ledger.run_session]
    rfl
  refine ⟨fun shot => ⟨fun v => Snapshot.supplies_of_returnValue?, fun x hx => hx.returnValue?_eq,
    Snapshot.returnValue?_eq_none_iff⟩, hsession, ?_, ?_, ?_⟩
  · intro value step htold
    exact h.told_return (List.mem_filterMap.mpr ⟨_, htold, rfl⟩)
  · intro n hn
    obtain ⟨hreturned, houtstanding⟩ := h.shown_return hn
    refine ⟨fun hr => ?_, fun hr => (houtstanding hr).1⟩
    obtain ⟨shot, hshot, hend, hvalue, -⟩ := hreturned hr
    exact ⟨shot, hshot, hend, hvalue⟩
  · intro view hview
    obtain ⟨n, hn, hcall⟩ := h.view_of_forest hview
    obtain ⟨hreturned, houtstanding⟩ := h.shown_return hn
    rw [hcall]
    refine ⟨fun hr => ?_, fun hr => (houtstanding hr).2⟩
    obtain ⟨shot, hshot, hend, -, htext⟩ := hreturned hr
    exact ⟨shot, hshot, hend, htext⟩

/-- A document of a trace in which a function returns, with its result in the innermost scope, behind a
function. -/
def Trace.returningText : String :=
  "[[[1],[2],[3,0,\"\",[[\"f\"]]],[4,0,\"\",[],[[\"Local\",[[\"f\",\"[Function]\",\"function\"],[\"out\",7,\"number\"]]]]]]]"

open Transcript in
/-- In a run of that trace the tree shows the return of the function with the value of the number, which is
read off a captured snapshot. -/
theorem return_value_of_number :
    let t := (opened .standard).run
      [.setSource Trace.returningText, .forward, .forward, .forward]
    let views := CallTree.preorderAll t.session.execution.tracker.forest
    Session.new? .standard = .ok .standard
    ∧ views.map (·.call.returnValue) = [some "7"]
    ∧ ∀ view ∈ views, ∃ shot ∈ t.captured, view.call.endStep = some shot.position.stepNumber
        ∧ view.call.returnValue = some (valueText .forCallTree shot.returnValue?) := by
  intro t views
  have hnew : Session.new? .standard = .ok .standard := by rfl
  have hshown : views.map (·.call.returnValue) = [some "7"] := by decide +kernel
  have hover : views.all (·.call.hasReturned) = true := by decide +kernel
  obtain ⟨-, -, -, -, hviews⟩ := return_values_supplied hnew
    [.setSource Trace.returningText, .forward, .forward, .forward]
  refine ⟨hnew, hshown, ?_⟩
  intro view hview
  exact (hviews view hview).1 (List.all_eq_true.mp hover view hview)

/-- A snapshot with one scope, which has one variable, a function by the name of `result`. -/
def Snapshot.ofResultFunction : Snapshot :=
  ⟨⟨2, some 4, none, none⟩, [⟨"Local", [.ofFunction "result"]⟩], [], none⟩

/-- A function may be reported as the value of a return: from that snapshot the text that stands for a
function is guessed, and a return seen there has it as its value, though no variable that is no function
holds anything. -/
theorem function_reported :
    let shot := Snapshot.ofResultFunction
    shot.returnValue? = some (.string Variable.functionText)
    ∧ shot.transition (some 1) = .returned (some (.string Variable.functionText)) 2
    ∧ (∀ x ∈ shot.innermostVariables, x.kind = .function)
    ∧ ¬∃ x ∈ shot.innermostVariables, x.kind ≠ .function
        ∧ x.value = some (.string Variable.functionText) := by
  intro shot
  have hfunctions : ∀ x ∈ shot.innermostVariables, x.kind = .function := by
    intro x hx
    rw [List.mem_singleton.mp hx]
    rfl
  refine ⟨rfl, rfl, hfunctions, ?_⟩
  rintro ⟨x, hx, hkind, -⟩
  exact hkind (hfunctions x hx)

end Retrace
