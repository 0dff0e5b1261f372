import Retrace.Proofs.CallTree.Plan
import Retrace.Proofs.Session.Gathered
/-!
# Walking through a plan grows the tracker by its calls

The snapshots captured while a plan is walked show one call stack after the other. Whoever takes notice
of them sees only depths: deeper by one at each push, shallower by one at each pop. That is enough to
enter and to leave the right calls, however often their names repeat: when a walk is over the depth is
what it was before, and the tracker has grown by exactly the calls walked (`walked_of_walkAll`).
-/

namespace Retrace

open Json (Value)

namespace Gathered

/-- Takes notice of the snapshots at `count` places, from the place `first` on. -/
def observePlaces (g : Gathered) (shot : Nat → Snapshot) (first count : Nat) : Gathered :=
  (List.range' first count).foldl (fun g q => g.observe (shot q)) g

theorem observePlaces_succ (g : Gathered) (shot : Nat → Snapshot) (first count : Nat) :
    g.observePlaces shot first (count + 1)
      = (g.observe (shot first)).observePlaces shot (first + 1) count := by
  unfold observePlaces
  rw [List.range'_succ, List.foldl_cons]

theorem observePlaces_add (g : Gathered) (shot : Nat → Snapshot) (first count more : Nat) :
    g.observePlaces shot first (count + more)
      = (g.observePlaces shot first count).observePlaces shot (first + count) more := by
  unfold observePlaces
  rw [← List.foldl_append, List.range'_append_1]

theorem observePlaces_one (g : Gathered) (shot : Nat → Snapshot) (first : Nat) :
    g.observePlaces shot first 1 = g.observe (shot first) := rfl

/-- The depth seen last is that of the snapshot, and the tracker follows what the change of depth
says. -/
theorem observe_eq (g : Gathered) (s : Snapshot) :
    (g.observe s).baseline.depth = some s.depth
    ∧ (g.observe s).tracker
      = (s.transition g.baseline.depth).event?.elim g.tracker g.tracker.follow := ⟨rfl, rfl⟩

/-- A stack that is no deeper and no shallower shows nothing. -/
theorem observe_same {g : Gathered} {s : Snapshot} (hdepth : g.baseline.depth = some s.depth) :
    (g.observe s).baseline.depth = some s.depth ∧ (g.observe s).tracker = g.tracker := by
  obtain ⟨hbaseline, htracker⟩ := g.observe_eq s
  refine ⟨hbaseline, ?_⟩
  rw [htracker, hdepth]
  unfold Snapshot.transition
  simp only [Nat.lt_irrefl, if_false]
  rfl

/-- A push is seen as the call of the frame that was pushed. -/
theorem observe_push {g : Gathered} {s : Snapshot} {frame : Frame} {stack : List Frame}
    (hdepth : g.baseline.depth = some stack.length) (hframes : s.frames = frame :: stack)
    (hnamed : frame.isNamedCall = true) :
    (g.observe s).baseline.depth = some (stack.length + 1)
    ∧ (g.observe s).tracker = (g.tracker.enter ⟨frame.functionName, frame.arguments.map .string,
        s.position.stepNumber, frame.line⟩).1 := by
  have hs : s.depth = stack.length + 1 := by
    unfold Snapshot.depth
    rw [hframes, List.length_cons]
  have hcall : s.innermostCall? = some ⟨frame.functionName, frame.arguments.map .string,
      s.position.stepNumber, frame.line⟩ := by
    unfold Snapshot.innermostCall? Snapshot.innermostFrame?
    rw [hframes, List.head?_cons]
    simp only [hnamed, if_true]
  obtain ⟨hbaseline, htracker⟩ := g.observe_eq s
  rw [hbaseline, htracker, hdepth, hs]
  refine ⟨rfl, ?_⟩
  unfold Snapshot.transition
  rw [hs]
  simp only [Nat.lt_succ_self, if_true, hcall]
  rfl

/-- A pop is seen as the return of the innermost call. -/
theorem observe_pop {g : Gathered} {s : Snapshot} {stack : List Frame}
    (hdepth : g.baseline.depth = some (stack.length + 1)) (hframes : s.frames = stack) :
    (g.observe s).baseline.depth = some stack.length
    ∧ (g.observe s).tracker = (g.tracker.leave s.returnValue? s.position.stepNumber).1 := by
  have hs : s.depth = stack.length := by
    unfold Snapshot.depth
    rw [hframes]
  obtain ⟨hbaseline, htracker⟩ := g.observe_eq s
  rw [hbaseline, htracker, hdepth, hs]
  refine ⟨rfl, ?_⟩
  unfold Snapshot.transition
  have hnot : ¬stack.length + 1 < stack.length := by omega
  rw [hs]
  simp only [hnot, if_false, Nat.lt_succ_self, if_true]
  rfl

end Gathered

/-- Whether the snapshots from the place `first` on show the given call stacks. -/
def Shows (shot : Nat → Snapshot) (first : Nat) (later : List (List Frame)) : Prop :=
  ∀ (k : Nat) (stack : List Frame), later[k]? = some stack → (shot (first + k)).frames = stack

theorem Shows.left {shot : Nat → Snapshot} {first : Nat} {before after : List (List Frame)}
    (h : Shows shot first (before ++ after)) : Shows shot first before := by
  intro k stack hk
  have hlt := (List.getElem?_eq_some_iff.mp hk).choose
  exact h k stack (by rw [List.getElem?_append_left hlt]; exact hk)

theorem Shows.right {shot : Nat → Snapshot} {first : Nat} {before after : List (List Frame)}
    (h : Shows shot first (before ++ after)) : Shows shot (first + before.length) after := by
  intro k stack hk
  have hplace : first + before.length + k = first + (before.length + k) := by omega
  rw [hplace]
  refine h _ stack ?_
  rw [List.getElem?_append_right (by omega), Nat.add_sub_cancel_left]
  exact hk

theorem Shows.head {shot : Nat → Snapshot} {first : Nat} {stack : List Frame}
    {later : List (List Frame)} (h : Shows shot first (stack :: later)) :
    (shot first).frames = stack := h 0 stack rfl

theorem Shows.tail {shot : Nat → Snapshot} {first : Nat} {stack : List Frame}
    {later : List (List Frame)} (h : Shows shot first (stack :: later)) :
    Shows shot (first + 1) later := by
  have h : Shows shot first ([stack] ++ later) := h
  exact h.right

/-- What was gathered before and after whole calls: the depth of the call stack is the same, and the
tracker has grown by these calls. -/
structure Walked (g : Gathered) (ids : List Nat) (added : List CallNode) (g' : Gathered) :
    Prop where
  depth_eq : g'.baseline.depth = g.baseline.depth
  wellFormed : g'.tracker.WellFormed
  grown : g.tracker.Grown ids added g'.tracker

namespace CallPlan

mutual

/-- A whole call is seen as such. The recursion is that of the walk: the calls made during a call are
walked between its push and its pop, on a tracker where it is the innermost one. -/
theorem walked_of_walk {shot : Nat → Snapshot} (hstep : ∀ q, (shot q).position.stepNumber = q) :
    ∀ (p : CallPlan) {g : Gathered} {stack : List Frame} {step : Nat},
      g.baseline.depth = some stack.length → g.tracker.WellFormed →
      Shows shot step (p.walk stack) →
      Walked g [g.tracker.nodes.size]
        (p.nodes (fun q => (shot q).returnValue?) g.tracker.outstanding.head?
          g.tracker.outstanding.length g.tracker.nodes.size step)
        (g.observePlaces shot step (2 * p.size))
  | call frame named calls, g, stack, step, hdepth, hw, hshows => by
    rw [walk] at hshows
    -- the push
    obtain ⟨hpushed, hentered⟩ := Gathered.observe_push hdepth hshows.head named
    rw [hstep step] at hentered
    generalize hg₁ : g.observe (shot step) = g₁ at hpushed hentered
    have hw₁ : g₁.tracker.WellFormed := by
      rw [hentered]
      exact hw.enter _
    -- the calls made during it
    have hinner := walked_of_walkAll hstep calls hpushed hw₁ hshows.tail.left
    have hshown := hshows.tail.right.head
    rw [length_walkAll] at hshown
    generalize hg₂ : g₁.observePlaces shot (step + 1) (2 * totalSize calls) = g₂ at hinner
    -- the pop
    have hplace : step + 1 + 2 * totalSize calls = step + 2 * totalSize calls + 1 := by omega
    rw [hplace] at hshown
    obtain ⟨hpopped, hleft⟩ := Gathered.observe_pop (hinner.depth_eq.trans hpushed) hshown
    rw [hstep (step + 2 * totalSize calls + 1)] at hleft
    have hcount : 2 * (call frame named calls).size = 2 * totalSize calls + 1 + 1 := by
      rw [size]
      omega
    have hwalk : g.observePlaces shot step (2 * (call frame named calls).size)
        = g₂.observe (shot (step + 2 * totalSize calls + 1)) := by
      rw [hcount, Gathered.observePlaces_succ, hg₁, Gathered.observePlaces_add, hg₂, hplace,
        Gathered.observePlaces_one]
    have hgrown := hinner.grown
    rw [hentered, Tracker.outstanding_enter, Tracker.size_enter] at hgrown
    rw [hwalk]
    refine ⟨hpopped.trans hdepth.symm, ?_, ?_⟩
    · rw [hleft]
      exact hinner.wellFormed.leave _ _
    · rw [hleft, nodes]
      exact Tracker.Grown.call hw hinner.wellFormed hgrown _ _

theorem walked_of_walkAll {shot : Nat → Snapshot}
    (hstep : ∀ q, (shot q).position.stepNumber = q) :
    ∀ (ps : List CallPlan) {g : Gathered} {stack : List Frame} {step : Nat},
      g.baseline.depth = some stack.length → g.tracker.WellFormed →
      Shows shot step (walkAll stack ps) →
      Walked g (ids g.tracker.nodes.size ps)
        (nodesAll (fun q => (shot q).returnValue?) g.tracker.outstanding.head?
          g.tracker.outstanding.length g.tracker.nodes.size step ps)
        (g.observePlaces shot step (2 * totalSize ps))
  | [], g, _, _, _, hw, _ => ⟨rfl, hw, g.tracker.grown_refl⟩
  | p :: ps, g, stack, step, hdepth, hw, hshows => by
    rw [walkAll] at hshows
    have hfirst := walked_of_walk hstep p hdepth hw hshows.left
    have hshown := hshows.right
    rw [length_walk] at hshown
    have hwalk : g.observePlaces shot step (2 * totalSize (p :: ps))
        = (g.observePlaces shot step (2 * p.size)).observePlaces shot (step + 2 * p.size)
          (2 * totalSize ps) := by
      rw [← Gathered.observePlaces_add, totalSize, Nat.mul_add]
    rw [hwalk]
    generalize g.observePlaces shot step (2 * p.size) = g₁ at hfirst
    have hrest := walked_of_walkAll hstep ps (hfirst.depth_eq.trans hdepth) hfirst.wellFormed hshown
    have hgrown := hrest.grown
    rw [hfirst.grown.outstanding_eq, hfirst.grown.size_eq, length_nodes] at hgrown
    refine ⟨hrest.depth_eq.trans hfirst.depth_eq, hrest.wellFormed, ?_⟩
    rw [ids, nodesAll]
    exact hfirst.grown.trans hw hgrown

end

/-- Snapshots of a call stack, and then of a plan walked from it, give the trees of the plan. -/
theorem forest_of_walkAll {shot : Nat → Snapshot} (hstep : ∀ q, (shot q).position.stepNumber = q)
    {base : List Frame} {plans : List CallPlan} {first : Nat} (hbase : (shot first).frames = base)
    (hshows : Shows shot (first + 1) (walkAll base plans)) :
    (Gathered.nothing.observePlaces shot first (2 * totalSize plans + 1)).tracker.forest
      = trees (fun q => (shot q).returnValue?) 0 0 (first + 1) plans := by
  rw [Gathered.observePlaces_succ]
  -- the first snapshot only tells how deep the call stack is
  have hdepth : (Gathered.nothing.observe (shot first)).baseline.depth = some base.length := by
    rw [← hbase]
    rfl
  have htracker : (Gathered.nothing.observe (shot first)).tracker = .empty := rfl
  have hwalked := walked_of_walkAll hstep plans hdepth Tracker.wellFormed_empty hshows
  exact forest_of_plan hwalked.wellFormed hwalked.grown

end CallPlan

end Retrace
