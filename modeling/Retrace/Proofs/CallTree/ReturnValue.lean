import Retrace.Proofs.CallTree.Intervals
/-!
# Where the value of a return comes from

The value of a return is guessed from the variables of the innermost scope, and a variable is found in
one of two ways: by its name, if that is a conventional one (`ChosenByName`), or by what it holds. A
variable that is found by what it holds is no function; one that is found by its name may be
(`supplies_of_returnValue?`). Nothing is found only where every variable is a function or has no value
(`returnValue?_eq_none_iff`).

A tracker invents no values: what a call shows to have returned is what one of the changes that the tracker
followed says (`returns_followAll`).
-/

namespace Retrace

open Json (Value)

namespace Snapshot

/-- The value of the first variable of a name, in the innermost scope. -/
def namedValue? (s : Snapshot) (name : String) : Option Value :=
  (s.innermostVariables.find? (·.name == name)).bind Variable.value

/-- Variable `x` is found by its name: the name is a conventional one, and the variables found by the
likelier names have no value. -/
structure ChosenByName (s : Snapshot) (x : Variable) : Prop where
  likeliest : ∃ likelier rest, resultNames = likelier ++ x.name :: rest
    ∧ ∀ name ∈ likelier, s.namedValue? name = none
  first : s.innermostVariables.find? (·.name == x.name) = some x
  hasValue : x.value.isSome = true

/-- Where the value of a return may come from: a variable of the innermost scope that is no function, or
a function that is found by its name. -/
inductive Supplies (s : Snapshot) (v : Value) : Prop where
  | data (x : Variable) (hx : x ∈ s.innermostVariables) (hkind : x.kind ≠ .function)
      (hvalue : x.value = some v)
  | function (x : Variable) (hchosen : s.ChosenByName x) (hkind : x.kind = .function)
      (hvalue : x.value = some v)

variable {s : Snapshot} {x : Variable} {v : Value}

theorem ChosenByName.mem (h : s.ChosenByName x) : x ∈ s.innermostVariables :=
  List.mem_of_find?_eq_some h.first

/-- The search by name finds the value of the variable that is chosen. -/
theorem findSome?_names_iff :
    resultNames.findSome? s.namedValue? = some v ↔ ∃ x, s.ChosenByName x ∧ x.value = some v := by
  rw [List.findSome?_eq_some_iff]
  constructor
  · rintro ⟨likelier, name, rest, hsplit, hvalue, hnone⟩
    obtain ⟨x, hfirst, hx⟩ := Option.bind_eq_some_iff.mp hvalue
    have hname : x.name = name := by simpa using List.find?_some hfirst
    subst hname
    exact ⟨x, ⟨⟨likelier, rest, hsplit, hnone⟩, hfirst, Option.isSome_of_eq_some hx⟩, hx⟩
  · rintro ⟨x, ⟨⟨likelier, rest, hsplit, hnone⟩, hfirst, -⟩, hx⟩
    refine ⟨likelier, x.name, rest, hsplit, ?_, hnone⟩
    unfold namedValue?
    rw [hfirst]
    exact hx

theorem findSome?_names_eq_none_iff :
    resultNames.findSome? s.namedValue? = none ↔ ∀ x, ¬s.ChosenByName x := by
  constructor
  · intro hnone x hx
    obtain ⟨v, hv⟩ := Option.isSome_iff_exists.mp hx.hasValue
    rw [findSome?_names_iff.mpr ⟨x, hx, hv⟩] at hnone
    cases hnone
  · intro hno
    cases hfound : resultNames.findSome? s.namedValue? with
    | none => rfl
    | some v =>
      obtain ⟨x, hx, -⟩ := findSome?_names_iff.mp hfound
      exact absurd hx (hno x)

/-- The search by name comes first, then that for an array, then that for any value of no function. -/
theorem returnValue?_eq :
    s.returnValue? = (resultNames.findSome? s.namedValue?).or
      ((s.innermostVariables.findSome? fun x => x.arrayItems?.map Value.array).or
        ((s.innermostVariables.filter (·.kind != .function)).findSome? Variable.value)) := by
  unfold returnValue?
  simp only [Option.orElse_eq_orElse, Option.orElse_eq_or]
  rfl

end Snapshot

/-- A variable that holds an array is no function. -/
theorem Variable.of_arrayItems? {x : Variable} {items : List Value}
    (h : x.arrayItems? = some items) : x.kind = .array ∧ x.value = some (.array items) := by
  unfold arrayItems? at h
  split at h
  next hkind hvalue =>
    injection h with h
    rw [← h]
    exact ⟨hkind, hvalue⟩
  next => cases h

namespace Snapshot

variable {s : Snapshot} {x : Variable} {v : Value}

/-- The value of a variable that is chosen by its name is the value of the return. -/
theorem ChosenByName.returnValue?_eq (h : s.ChosenByName x) : s.returnValue? = x.value := by
  obtain ⟨v, hv⟩ := Option.isSome_iff_exists.mp h.hasValue
  rw [Snapshot.returnValue?_eq, findSome?_names_iff.mpr ⟨x, h, hv⟩, hv]
  rfl

/-- The value of a return is held by a variable that is no function, or by one that is found by its
name. -/
theorem supplies_of_returnValue? (h : s.returnValue? = some v) : s.Supplies v := by
  rw [returnValue?_eq] at h
  rcases Option.or_eq_some_iff.mp h with hnamed | ⟨-, h⟩
  · obtain ⟨x, hx, hv⟩ := findSome?_names_iff.mp hnamed
    by_cases hkind : x.kind = .function
    · exact .function x hx hkind hv
    · exact .data x hx.mem hkind hv
  · rcases Option.or_eq_some_iff.mp h with harray | ⟨-, hplain⟩
    · obtain ⟨x, hx, hmapped⟩ := List.exists_of_findSome?_eq_some harray
      obtain ⟨items, hitems, rfl⟩ := Option.map_eq_some_iff.mp hmapped
      obtain ⟨hkind, hv⟩ := Variable.of_arrayItems? hitems
      refine .data x hx ?_ hv
      rw [hkind]
      decide
    · obtain ⟨x, hx, hv⟩ := List.exists_of_findSome?_eq_some hplain
      obtain ⟨hx, hkind⟩ := List.mem_filter.mp hx
      exact .data x hx (bne_iff_ne.mp hkind) hv

/-- A return has no value exactly if every variable is a function or has no value, and none is chosen by
its name. -/
theorem returnValue?_eq_none_iff :
    s.returnValue? = none ↔
      (∀ x ∈ s.innermostVariables, x.kind = .function ∨ x.value = none)
      ∧ ∀ x, ¬s.ChosenByName x := by
  rw [returnValue?_eq, Option.or_eq_none_iff, Option.or_eq_none_iff, findSome?_names_eq_none_iff]
  constructor
  · rintro ⟨hnamed, -, hplain⟩
    refine ⟨fun x hx => ?_, hnamed⟩
    by_cases hkind : x.kind = .function
    · exact Or.inl hkind
    · have hmem : x ∈ s.innermostVariables.filter (·.kind != .function) :=
        List.mem_filter.mpr ⟨hx, bne_iff_ne.mpr hkind⟩
      exact Or.inr (List.findSome?_eq_none_iff.mp hplain x hmem)
  · rintro ⟨hnone, hnamed⟩
    refine ⟨hnamed, List.findSome?_eq_none_iff.mpr fun x hx => ?_,
      List.findSome?_eq_none_iff.mpr fun x hx => ?_⟩
    · -- an array would be a value of a variable that is no function
      cases hitems : x.arrayItems? with
      | none => rfl
      | some items =>
        obtain ⟨hkind, hv⟩ := Variable.of_arrayItems? hitems
        rcases hnone x hx with hfunction | hno
        · rw [hkind] at hfunction
          cases hfunction
        · rw [hv] at hno
          cases hno
    · obtain ⟨hx, hkind⟩ := List.mem_filter.mp hx
      exact (hnone x hx).resolve_left (bne_iff_ne.mp hkind)

/-- A return that is read off a snapshot has the value guessed from it. -/
theorem value_of_event? {previous : Option Nat} {value : Option Value} {step : Nat}
    (h : (s.transition previous).event? = some (.leave value step)) :
    value = s.returnValue? ∧ step = s.position.stepNumber := by
  rcases event?_cases h with ⟨c, -, hcall⟩ | hreturn
  · cases hcall
  · cases hreturn
    exact ⟨rfl, rfl⟩

end Snapshot

namespace Tracker

/-- What a call shows to have returned, value and text, is what one of some changes says. -/
structure ReturnsOf (events : List CallEvent) (n : CallNode) : Prop where
  returned : n.hasReturned = true → ∃ step, .leave n.returnValue step ∈ events
    ∧ n.endStep = some step ∧ n.returnText = some (valueText .forCallTree n.returnValue)
  outstanding : n.hasReturned = false → n.returnValue = none ∧ n.returnText = none

theorem ReturnsOf.append {events : List CallEvent} {n : CallNode} (h : ReturnsOf events n)
    (later : List CallEvent) : ReturnsOf (events ++ later) n where
  returned hreturned := by
    obtain ⟨step, hmem, hrest⟩ := h.returned hreturned
    exact ⟨step, List.mem_append_left later hmem, hrest⟩
  outstanding := h.outstanding

/-- What calls show to have returned is what the tracker was told. The induction is on the changes, the last
one first. -/
theorem returns_followAll (events : List CallEvent) (i : Nat) (n : CallNode)
    (hn : (empty.followAll events).nodes[i]? = some n) : ReturnsOf events n := by
  induction events using List.reverseRecOn generalizing i n with
  | nil => cases hn
  | append_singleton events e ih =>
    have hw := wellFormed_empty.followAll events
    rw [followAll_append] at hn
    generalize empty.followAll events = t at hw hn ih
    cases e with
    | enter c =>
      have hn : (t.enter c).1.nodes[i]? = some n := hn
      rcases enter_cases hw hn with ⟨-, rfl⟩ | ⟨m, hm, rfl⟩
      · exact ⟨nofun, fun _ => ⟨rfl, rfl⟩⟩
      · have hold := (ih i m hm).append [.enter c]
        exact ⟨hold.returned, hold.outstanding⟩
    | leave value step =>
      have hn : (t.leave value step).1.nodes[i]? = some n := hn
      cases ho : t.outstanding with
      | nil =>
        rw [leave_of_nil ho] at hn
        exact (ih i n hn).append _
      | cons id callers =>
        obtain ⟨m, hm, ⟨-, rfl⟩ | ⟨-, rfl⟩⟩ := leave_cases hw ho hn
        · -- the call that returns
          exact ⟨fun _ => ⟨step, by simp [CallNode.returning], rfl, rfl⟩, nofun⟩
        · have hold := (ih i m hm).append [.leave value step]
          exact ⟨hold.returned, hold.outstanding⟩

end Tracker

end Retrace
