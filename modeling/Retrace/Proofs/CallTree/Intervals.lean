import Retrace.Proofs.CallTree.Settled
import Retrace.Proofs.Session.Unnamed
import Mathlib.Data.List.Induction
/-!
# The intervals of calls

A call lasts from the step at which it is made to the one at which it returns. Where steps never go
back, of two calls the later one lasts within the earlier one, or it begins when the earlier one is over.
It lasts within it if the earlier one encloses it, and that is so if the earlier one was outstanding when
the later one was made (`encloses_iff_outstanding`).

How two calls lie is settled change by change (`Timed`): a change is seen no earlier than all that was
recorded before it. Nothing else is asked of the order of the steps, which is `≤` where several
changes may be seen at one step and `<` where each is seen at a step of its own.
-/

namespace Retrace

namespace CallEvent

/-- The step at which a change of the call tree is seen. -/
def step : CallEvent → Nat
  | enter c => c.step
  | leave _ step => step

/-- The change as something that a tracker is told. -/
def operation : CallEvent → TrackerOperation
  | enter c => .enter c
  | leave value step => .leave value step

end CallEvent

namespace Tracker

theorem reset_not_mem_operations (events : List CallEvent) :
    .reset ∉ events.map CallEvent.operation := by
  intro hmem
  obtain ⟨e, -, he⟩ := List.mem_map.mp hmem
  cases e <;> cases he

theorem followAll_eq_run (t : Tracker) (events : List CallEvent) :
    t.followAll events = t.run (events.map CallEvent.operation) := by
  induction events generalizing t with
  | nil => rfl
  | cons e events ih =>
    have hfirst : t.follow e = t.perform e.operation := by cases e <;> rfl
    show (t.follow e).followAll events = (t.perform e.operation).run _
    rw [ih, hfirst]

theorem followAll_append (t : Tracker) (before after : List CallEvent) :
    t.followAll (before ++ after) = (t.followAll before).followAll after := List.foldl_append

theorem WellFormed.followAll {t : Tracker} (hw : t.WellFormed) (events : List CallEvent) :
    (t.followAll events).WellFormed := by
  rw [followAll_eq_run]
  exact hw.run _

/-! ## When a call is made -/

/-- Every call was made at some place, by the change that found as many calls there as its number
says. -/
theorem exists_made {events : List CallEvent} {b : Nat}
    (hb : b < (empty.followAll events).totalCalls) :
    ∃ before c after, events = before ++ .enter c :: after
      ∧ (empty.followAll before).totalCalls = b := by
  induction events using List.reverseRecOn with
  | nil => exact absurd hb (Nat.not_lt_zero b)
  | append_singleton events e ih =>
    by_cases hold : b < (empty.followAll events).totalCalls
    · obtain ⟨before, c, after, rfl, htotal⟩ := ih hold
      exact ⟨before, c, after ++ [e], by simp, htotal⟩
    · -- the call is the last one, and the last change made it
      rw [followAll_append] at hb
      generalize ht : empty.followAll events = t at hb hold
      have hb : b < (t.follow e).nodes.size := hb
      have hold : ¬b < t.nodes.size := hold
      cases e with
      | enter c =>
        have hb : b < (t.enter c).1.nodes.size := hb
        rw [size_enter] at hb
        refine ⟨events, c, [], rfl, ?_⟩
        rw [ht]
        show t.nodes.size = b
        omega
      | leave value step =>
        have hb : b < (t.leave value step).1.nodes.size := hb
        rw [size_leave] at hb
        exact absurd hb hold

/-- A call encloses a later one if it was outstanding when that was made, and only then. -/
theorem encloses_iff_outstanding (before : List CallEvent) (c : Call) (after : List CallEvent)
    (a : Nat) :
    (empty.followAll (before ++ .enter c :: after)).Encloses a (empty.followAll before).totalCalls
      ↔ a ∈ (empty.followAll before).outstanding := by
  rw [followAll_append]
  have hw : (empty.followAll before).WellFormed := wellFormed_empty.followAll before
  generalize empty.followAll before = t at hw
  show ((t.enter c).1.followAll after).Encloses a t.nodes.size ↔ a ∈ t.outstanding
  have hnew : t.nodes.size < (t.enter c).1.nodes.size := by
    rw [size_enter]
    exact Nat.lt_succ_self _
  rw [followAll_eq_run, (hw.enter c).encloses_run (reset_not_mem_operations after) hnew]
  exact (hw.enter c).encloses_top_iff (t.outstanding_enter c)

/-! ## How two calls lie -/

/-- How the intervals of two calls lie, the call `a` being the earlier one. Of a call that is outstanding
nothing is said but when it began. -/
structure Laid (R : Nat → Nat → Prop) (t : Tracker) (a b : Nat) (m n : CallNode) : Prop where
  begins : t.Encloses a b → R m.startStep n.startStep
  ends : t.Encloses a b → m.hasReturned = true →
    n.hasReturned = true ∧ ∃ e f, n.endStep = some e ∧ m.endStep = some f ∧ R e f
  apart : ¬t.Encloses a b → m.hasReturned = true ∧ ∃ e, m.endStep = some e ∧ R e n.startStep

/-- How two calls lie depends on the tracker only as far as it tells whether the earlier one encloses the
later one. -/
theorem Laid.congr {R : Nat → Nat → Prop} {t t' : Tracker} {a b : Nat} {m n : CallNode}
    (h : Laid R t a b m n) (hencloses : t'.Encloses a b ↔ t.Encloses a b) : Laid R t' a b m n where
  begins he := h.begins (hencloses.mp he)
  ends he := h.ends (hencloses.mp he)
  apart he := h.apart fun hold => he (hencloses.mpr hold)

/-- A tracker that was told of changes at the given steps: it has recorded no other steps, and any two
calls lie as they should. -/
structure Timed (R : Nat → Nat → Prop) (steps : List Nat) (t : Tracker) : Prop where
  wellFormed : t.WellFormed
  start_mem : ∀ (i : Nat) (n : CallNode), t.nodes[i]? = some n → n.startStep ∈ steps
  end_mem : ∀ (i : Nat) (n : CallNode), t.nodes[i]? = some n → ∀ e ∈ n.endStep, e ∈ steps
  laid : ∀ (a b : Nat) (m n : CallNode), a < b → t.nodes[a]? = some m → t.nodes[b]? = some n →
    Laid R t a b m n

namespace Timed

variable {R : Nat → Nat → Prop} {steps : List Nat} {t : Tracker}

theorem empty : Timed R [] .empty where
  wellFormed := wellFormed_empty
  start_mem _ _ hn := nomatch hn
  end_mem _ _ hn := nomatch hn
  laid _ _ _ _ _ hm := nomatch hm

/-- A call that is not outstanding has returned, at one of the steps. -/
theorem exists_endStep (h : Timed R steps t) {i : Nat} {n : CallNode} (hn : t.nodes[i]? = some n)
    (hr : n.hasReturned = true) : ∃ e ∈ steps, n.endStep = some e := by
  have hsome := (h.wellFormed.returned_iff i n hn).1
  rw [hr] at hsome
  obtain ⟨e, he⟩ := Option.isSome_iff_exists.mp hsome
  exact ⟨e, h.end_mem i n hn e he, he⟩

theorem enter (h : Timed R steps t) {c : Call} (hR : ∀ x ∈ steps, R x c.step) :
    Timed R (steps ++ [c.step]) (t.enter c).1 where
  wellFormed := h.wellFormed.enter c
  start_mem i n hn := by
    rcases enter_cases h.wellFormed hn with ⟨-, rfl⟩ | ⟨m, hm, rfl⟩
    · exact List.mem_append_right _ List.mem_cons_self
    · exact List.mem_append_left _ (h.start_mem i m hm)
  end_mem i n hn e he := by
    rcases enter_cases h.wellFormed hn with ⟨-, rfl⟩ | ⟨m, hm, rfl⟩
    · cases he
    · exact List.mem_append_left _ (h.end_mem i m hm e he)
  laid a b m' n' hab hm' hn' := by
    have hw := h.wellFormed
    have hb : b < (t.enter c).1.nodes.size := (Array.getElem?_eq_some_iff.mp hn').choose
    rw [size_enter] at hb
    rcases enter_cases hw hm' with ⟨rfl, -⟩ | ⟨m, hm, rfl⟩
    · omega
    rcases enter_cases hw hn' with ⟨rfl, rfl⟩ | ⟨n, hn, rfl⟩
    · -- the later call is the new one, which the outstanding calls enclose
      have hencloses := (hw.enter c).encloses_top_iff (a := a) (t.outstanding_enter c)
      refine ⟨fun _ => hR _ (h.start_mem a m hm), fun he hr => ?_, fun he => ?_⟩
      · exact absurd (hencloses.mp he) (hw.not_outstanding hm hr)
      · have hr := hw.hasReturned_of_not_outstanding hm fun ha => he (hencloses.mpr ha)
        obtain ⟨e, hmem, hend⟩ := h.exists_endStep hm hr
        exact ⟨hr, e, hend, hR e hmem⟩
    · have hop : TrackerOperation.enter c ≠ .reset := nofun
      have hold := (h.laid a b m n hab hm hn).congr
        (hw.encloses_perform hop (Array.getElem?_eq_some_iff.mp hn).choose)
      exact ⟨hold.begins, hold.ends, hold.apart⟩

theorem leave (h : Timed R steps t) {value : Option Json.Value} {step : Nat}
    (hR : ∀ x ∈ steps, R x step) : Timed R (steps ++ [step]) (t.leave value step).1 := by
  have hw := h.wellFormed
  cases ho : t.outstanding with
  | nil =>
    rw [leave_of_nil ho]
    exact ⟨hw, fun i n hn => List.mem_append_left _ (h.start_mem i n hn),
      fun i n hn e he => List.mem_append_left _ (h.end_mem i n hn e he), h.laid⟩
  | cons id callers =>
    refine ⟨hw.leave value step, ?_, ?_, ?_⟩
    · intro i n hn
      obtain ⟨m, hm, ⟨-, rfl⟩ | ⟨-, rfl⟩⟩ := leave_cases hw ho hn
      · exact List.mem_append_left _ (h.start_mem i m hm)
      · exact List.mem_append_left _ (h.start_mem i m hm)
    · intro i n hn e he
      obtain ⟨m, hm, ⟨-, rfl⟩ | ⟨-, rfl⟩⟩ := leave_cases hw ho hn
      · injection he with he
        exact List.mem_append_right _ (List.mem_singleton.mpr he.symm)
      · exact List.mem_append_left _ (h.end_mem i m hm e he)
    · intro a b m' n' hab hm' hn'
      obtain ⟨m, hm, hcaller⟩ := leave_cases hw ho hm'
      obtain ⟨n, hn, hcalled⟩ := leave_cases hw ho hn'
      have hop : TrackerOperation.leave value step ≠ .reset := nofun
      have hold := (h.laid a b m n hab hm hn).congr
        (hw.encloses_perform hop (Array.getElem?_eq_some_iff.mp hn).choose)
      have htop : id ∈ t.outstanding := by
        rw [ho]
        exact List.mem_cons_self
      rcases hcaller with ⟨rfl, rfl⟩ | ⟨-, rfl⟩
      · -- the earlier call returns, and what it encloses has done so before
        rcases hcalled with ⟨rfl, -⟩ | ⟨-, rfl⟩
        · exact absurd hab (Nat.lt_irrefl _)
        refine ⟨hold.begins, fun _ _ => ?_, fun he => ?_⟩
        · have hr : n.hasReturned = true := by
            refine hw.hasReturned_of_not_outstanding hn fun hb => ?_
            rw [ho] at hb
            rcases List.mem_cons.mp hb with rfl | hbelow
            · exact Nat.lt_irrefl _ hab
            · have hba := hw.lt_of_encloses ((hw.encloses_top_iff ho).mpr hbelow)
              omega
          obtain ⟨e, hmem, hend⟩ := h.exists_endStep hn hr
          exact ⟨hr, e, step, hend, rfl, hR e hmem⟩
        · exact absurd htop (hw.not_outstanding hm (hold.apart he).1)
      · rcases hcalled with ⟨rfl, rfl⟩ | ⟨-, rfl⟩
        · -- the later call returns, so the earlier one has not if it encloses it
          refine ⟨hold.begins, fun he hr => ?_, hold.apart⟩
          exact absurd htop (hw.not_outstanding hn (hold.ends he hr).1)
        · exact ⟨hold.begins, hold.ends, hold.apart⟩

/-- The tracker stays timed while it follows changes, each seen no earlier than those before it. The
induction is on the changes, the last one apart. -/
theorem of_followAll {events : List CallEvent}
    (hordered : (events.map CallEvent.step).Pairwise R) :
    Timed R (events.map CallEvent.step) (Tracker.empty.followAll events) := by
  induction events using List.reverseRecOn with
  | nil => exact empty
  | append_singleton events e ih =>
    rw [List.map_append, List.pairwise_append] at hordered
    obtain ⟨hbefore, -, hlast⟩ := hordered
    have hR : ∀ x ∈ events.map CallEvent.step, R x e.step := fun x hx =>
      hlast x hx e.step List.mem_cons_self
    rw [List.map_append, followAll_append]
    cases e with
    | enter c => exact (ih hbefore).enter hR
    | leave value step => exact (ih hbefore).leave hR

end Timed

end Tracker

end Retrace
