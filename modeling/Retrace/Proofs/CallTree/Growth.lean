import Retrace.Proofs.CallTree.Arena
/-!
# Whole calls leave a tracker as it was, but for what they add

A call that was entered and left again, with whole calls in between, is over for its tracker: the same
calls are outstanding as before, and the old nodes are as they were but for the new children of the
innermost outstanding call. `Grown` says this of any number of whole calls, made one after the other.

It has no case for a call that is still under way. Entering a call, growing by whole calls and leaving
it again is growing by one call (`Grown.call`), so an induction over the calls never meets one.
-/

namespace Retrace

namespace Tracker

/-- A tracker after several whole calls, made by the innermost outstanding call: `ids` are the numbers
of these calls, `added` the nodes of these and of all calls made during them. -/
structure Grown (t : Tracker) (ids : List Nat) (added : List CallNode) (t' : Tracker) : Prop where
  outstanding_eq : t'.outstanding = t.outstanding
  roots_eq : t'.roots.toList
    = if t.outstanding = [] then t.roots.toList ++ ids else t.roots.toList
  size_eq : t'.nodes.size = t.nodes.size + added.length
  old : ∀ i, i < t.nodes.size → t'.nodes[i]? = t.nodes[i]?.map fun n =>
    if t.outstanding.head? = some i then { n with children := n.children ++ ids.toArray } else n
  new : ∀ k, t'.nodes[t.nodes.size + k]? = added[k]?

theorem grown_refl (t : Tracker) : t.Grown [] [] t where
  outstanding_eq := rfl
  roots_eq := by simp
  size_eq := rfl
  old i _ := by simp
  new k := by simp

theorem Grown.trans {t t' t'' : Tracker} {ids ids' : List Nat} {added added' : List CallNode}
    (hw : t.WellFormed) (h : t.Grown ids added t') (h' : t'.Grown ids' added' t'') :
    t.Grown (ids ++ ids') (added ++ added') t'' where
  outstanding_eq := h'.outstanding_eq.trans h.outstanding_eq
  roots_eq := by
    rw [h'.roots_eq, h.roots_eq, h.outstanding_eq]
    split
    · rw [List.append_assoc]
    · rfl
  size_eq := by
    rw [h'.size_eq, h.size_eq, List.length_append]
    omega
  old i hi := by
    have hsize := h.size_eq
    rw [h'.old i (by omega), h.old i hi, h.outstanding_eq]
    cases t.nodes[i]? with
    | none => rfl
    | some n =>
      by_cases hhead : t.outstanding.head? = some i
      · simp [hhead]
      · simp [hhead]
  new k := by
    have hsize := h.size_eq
    rcases Nat.lt_or_ge k added.length with hk | hk
    · -- among the nodes of the first calls nobody made one of the later calls
      have hhead : ¬t'.outstanding.head? = some (t.nodes.size + k) := by
        intro hhead
        rw [h.outstanding_eq] at hhead
        have := hw.lt_of_head hhead
        omega
      rw [h'.old _ (by omega), h.new k, List.getElem?_append_left hk]
      simp [hhead]
    · have hplace : t.nodes.size + k = t'.nodes.size + (k - added.length) := by omega
      rw [hplace, h'.new, List.getElem?_append_right hk]

/-- The node of a call that has made some calls and returned. -/
def overNode (id depth : Nat) (parent : Option Nat) (c : Call) (ids : List Nat)
    (value : Option Json.Value) (step : Nat) : CallNode :=
  CallNode.returning { CallNode.ofCall id depth parent c with children := ids.toArray } value step

/-- Entering a call, making whole calls and leaving it is one whole call. -/
theorem Grown.call {t t' : Tracker} {c : Call} {ids : List Nat} {added : List CallNode}
    (hw : t.WellFormed) (hw' : t'.WellFormed) (h : (t.enter c).1.Grown ids added t')
    (value : Option Json.Value) (step : Nat) :
    t.Grown [t.nodes.size]
      (overNode t.nodes.size t.outstanding.length t.outstanding.head? c ids value step :: added)
      (t'.leave value step).1 := by
  have ho : t'.outstanding = t.nodes.size :: t.outstanding := by
    rw [h.outstanding_eq, outstanding_enter]
  have hsize := h.size_eq
  rw [size_enter] at hsize
  refine ⟨outstanding_leave ho value step, ?_, ?_, ?_, ?_⟩
  · -- only a call with no caller is a new root
    rw [roots_leave ho, h.roots_eq, outstanding_enter, if_neg (List.cons_ne_nil _ _), roots_enter]
    split
    · rw [Array.toList_push]
    · rfl
  · rw [size_leave, hsize, List.length_cons]
    omega
  · -- an old node is touched by the call and by the return only, if it is the caller
    intro i hi
    have hne : i ≠ t.nodes.size := by omega
    have hold : t'.nodes[i]? = (t.enter c).1.nodes[i]? := by
      rw [h.old i (by rw [size_enter]; omega), outstanding_enter]
      have hother : ¬t.nodes.size = i := fun he => hne he.symm
      simp [hother]
    obtain ⟨n, hn⟩ : ∃ n, t.nodes[i]? = some n := ⟨_, Array.getElem?_eq_getElem hi⟩
    rw [getElem?_leave hw' ho, if_neg hne, hold, getElem?_enter hw, if_neg hne, hn]
    by_cases hhead : t.outstanding.head? = some i
    · -- the caller was the active call, and is so again
      have ha : n.isActive = true := (hw.active_iff i n hn).mpr hhead
      simp [hhead, CallNode.callingChild, ha]
    · have ha := hw.isActive_eq_false hn hhead
      simp [hhead, ← ha]
  · intro k
    cases k with
    | zero =>
      have hnew : t'.nodes[t.nodes.size]? = some { CallNode.ofCall t.nodes.size t.outstanding.length
          t.outstanding.head? c with children := ids.toArray } := by
        rw [h.old _ (by rw [size_enter]; omega), outstanding_enter, getElem?_enter_new hw]
        simp [CallNode.ofCall]
      rw [Nat.add_zero, getElem?_leave hw' ho, if_pos rfl, hnew]
      rfl
    | succ k =>
      have hplace : t.nodes.size + (k + 1) = (t.enter c).1.nodes.size + k := by
        rw [size_enter]
        omega
      have hadded : t'.nodes[t.nodes.size + (k + 1)]? = added[k]? := by
        rw [hplace]
        exact h.new k
      have hhead : ¬t.outstanding.head? = some (t.nodes.size + (k + 1)) := by
        intro hhead
        have := hw.lt_of_head hhead
        omega
      rw [getElem?_leave hw' ho, if_neg (by omega), hadded]
      show _ = added[k]?
      cases hn : added[k]? with
      | none => rfl
      | some n =>
        -- the innermost call is the one that returns, so none of these was active
        have htop : t'.outstanding.head? ≠ some (t.nodes.size + (k + 1)) := by
          rw [ho]
          intro htop
          injection htop with htop
          omega
        have ha := hw'.isActive_eq_false (hadded.trans hn) htop
        simp [hhead, ← ha]

end Tracker

end Retrace
