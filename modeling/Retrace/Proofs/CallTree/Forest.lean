import Retrace.Proofs.CallTree.Arena
/-!
# The forest unfolds the records of its tracker

The trees of a tracker are put together from the last call to the first, each from the trees of the
calls it made. In a well-formed tracker these calls come later, so their trees are ready, and none of
them changes any more. Hence what results is a fixed point: at the place of each call stands the tree
of that call over the trees that stand at the places of the calls it made (`getElem?_builtTrees`).

A fixed point it is of a table from which nothing is moved out (`builtTrees`). The trees that are put
together do move, but each call stands once among the calls of one caller only, or among the roots. So
each tree is there when it is asked for, and is asked for once: the forest is read off the table of the
trees as it would be without any moves (`forest_eq_treesAt`).
-/

namespace Retrace

namespace Tracker

/-- The trees found at some indices, missing ones skipped. -/
def treesAt (built : Array (Option CallTree)) (ids : Array Nat) : List CallTree :=
  ids.toList.filterMap fun i => (built[i]?).join

/-- The tree of every call, at the index that is its number. -/
def builtTrees (t : Tracker) : Array (Option CallTree) :=
  t.nodes.foldr
    (fun n built => built.setIfInBounds n.id (some (.node n.summary (treesAt built n.children))))
    (Array.replicate t.nodes.size none)

/-- The trees of the calls in a list, put together from the last one on. -/
def builtFrom (size : Nat) (nodes : List CallNode) : Array (Option CallTree) :=
  nodes.foldr
    (fun n built => built.setIfInBounds n.id (some (.node n.summary (treesAt built n.children))))
    (Array.replicate size none)

theorem builtTrees_eq (t : Tracker) : t.builtTrees = builtFrom t.nodes.size t.nodes.toList := by
  unfold builtTrees builtFrom
  rw [← Array.foldr_toList]

theorem size_builtFrom (size : Nat) (nodes : List CallNode) :
    (builtFrom size nodes).size = size := by
  unfold builtFrom
  induction nodes with
  | nil => simp
  | cons n nodes ih => simpa using ih

theorem treesAt_setIfInBounds {built : Array (Option CallTree)} {i : Nat} (tree : Option CallTree)
    {ids : Array Nat} (hi : i ∉ ids.toList) :
    treesAt (built.setIfInBounds i tree) ids = treesAt built ids := by
  unfold treesAt
  refine List.filterMap_congr ?_
  intro j hj
  have hne : i ≠ j := by
    intro he
    rw [he] at hi
    exact hi hj
  rw [Array.getElem?_setIfInBounds_ne hne]

/-- The trees of the last calls, from the call at place `i` on. The induction is on these calls: the
one put in last stands before all others and before all calls that they made. -/
theorem getElem?_builtFrom (size : Nat) :
    ∀ (nodes : List CallNode) (i : Nat), i + nodes.length ≤ size →
      (∀ (k : Nat) (n : CallNode), nodes[k]? = some n → n.id = i + k) →
      (∀ (k : Nat) (n : CallNode), nodes[k]? = some n → ∀ j ∈ n.children.toList, i + k < j) →
      ∀ (k : Nat) (n : CallNode), nodes[k]? = some n →
        (builtFrom size nodes)[i + k]?
          = some (some (.node n.summary (treesAt (builtFrom size nodes) n.children)))
  | [], _, _, _, _, k, n, hn => by cases hn
  | first :: rest, i, hsize, hid, hlater, k, n, hn => by
    have hfirst : first.id = i := hid 0 first rfl
    have hlt : i < (builtFrom size rest).size := by
      rw [size_builtFrom]
      rw [List.length_cons] at hsize
      omega
    have hbuilt : builtFrom size (first :: rest) = (builtFrom size rest).setIfInBounds i
        (some (.node first.summary (treesAt (builtFrom size rest) first.children))) := by
      rw [← hfirst]
      rfl
    -- the place of the first call is none of those where calls made later stand
    have hkept : treesAt (builtFrom size (first :: rest)) n.children
        = treesAt (builtFrom size rest) n.children := by
      rw [hbuilt]
      refine treesAt_setIfInBounds _ ?_
      intro hi
      have := hlater k n hn i hi
      omega
    rw [hkept, hbuilt]
    cases k with
    | zero =>
      injection hn with hn
      rw [← hn, Nat.add_zero, Array.getElem?_setIfInBounds_self_of_lt hlt]
    | succ k =>
      have hrest := getElem?_builtFrom size rest (i + 1)
        (by rw [List.length_cons] at hsize; omega)
        (fun k n hn => by have := hid (k + 1) n hn; omega)
        (fun k n hn j hj => by have := hlater (k + 1) n hn j hj; omega) k n hn
      rw [Array.getElem?_setIfInBounds_ne (by omega)]
      have hplace : i + (k + 1) = i + 1 + k := by omega
      rw [hplace]
      exact hrest

/-- At the place of a call stands its tree, over the trees of the calls it made. -/
theorem getElem?_builtTrees {t : Tracker} (hw : t.WellFormed) {i : Nat} {n : CallNode}
    (hn : t.nodes[i]? = some n) :
    t.builtTrees[i]? = some (some (.node n.summary (treesAt t.builtTrees n.children))) := by
  have hlist : ∀ {k : Nat} {m : CallNode}, t.nodes.toList[k]? = some m → t.nodes[k]? = some m := by
    intro k m hm
    rw [← Array.getElem?_toList]
    exact hm
  have hplace := getElem?_builtFrom t.nodes.size t.nodes.toList 0 (by simp)
    (fun k m hm => by rw [hw.id_eq k m (hlist hm), Nat.zero_add])
    (fun k m hm j hj => by
      have := hw.lt_of_made ((hw.mem_children k m (hlist hm) j).mp hj)
      omega)
    i n (by rw [Array.getElem?_toList]; exact hn)
  rw [builtTrees_eq]
  rw [Nat.zero_add] at hplace
  exact hplace

/-! ## Moving the trees -/

theorem moveOut_eq (built : Array (Option CallTree)) (i : Nat) :
    moveOut built i = ((built[i]?).join, built.setIfInBounds i none) := by
  unfold moveOut
  split
  next h => simp [Array.swapAt_def, Array.setIfInBounds, h]
  next h => simp [Array.setIfInBounds, h]

theorem size_moveAllOut (built : Array (Option CallTree)) (ids : List Nat) :
    (moveAllOut built ids).2.size = built.size := by
  induction ids generalizing built with
  | nil => rfl
  | cons i ids ih =>
    show (moveAllOut (moveOut built i).2 ids).2.size = built.size
    rw [ih, moveOut_eq, Array.size_setIfInBounds]

/-- What is moved out is gone, and nothing else is. -/
theorem getElem?_moveAllOut {built : Array (Option CallTree)} {ids : List Nat} {j : Nat}
    (hj : j ∉ ids) : (moveAllOut built ids).2[j]? = built[j]? := by
  induction ids generalizing built with
  | nil => rfl
  | cons i ids ih =>
    rw [List.mem_cons, not_or] at hj
    show (moveAllOut (moveOut built i).2 ids).2[j]? = built[j]?
    rw [ih hj.2, moveOut_eq, Array.getElem?_setIfInBounds_ne (fun he => hj.1 he.symm)]

theorem treesAt_cons (built : Array (Option CallTree)) (i : Nat) (ids : List Nat) :
    treesAt built (i :: ids).toArray = (built[i]?).join.toList ++ treesAt built ids.toArray := by
  unfold treesAt
  rw [List.filterMap_cons]
  cases (built[i]?).join <;> rfl

/-- Indices that are all different find what was in the table at first. -/
theorem moveAllOut_fst {built : Array (Option CallTree)} {ids : List Nat} (hids : ids.Nodup) :
    (moveAllOut built ids).1 = treesAt built ids.toArray := by
  induction ids generalizing built with
  | nil => rfl
  | cons i ids ih =>
    obtain ⟨hi, hids⟩ := List.nodup_cons.mp hids
    show (moveOut built i).1.toList ++ (moveAllOut (moveOut built i).2 ids).1 = _
    rw [moveOut_eq, ih hids, treesAt_setIfInBounds none hi, treesAt_cons]

/-- The trees of the calls in a list, put together from the last one on and moved under their
callers. -/
def assembledFrom (size : Nat) (nodes : List CallNode) : Array (Option CallTree) :=
  nodes.foldr assemble (Array.replicate size none)

theorem assembled_eq (t : Tracker) : t.assembled = assembledFrom t.nodes.size t.nodes.toList := by
  unfold assembled assembledFrom
  rw [← Array.foldr_toList]

theorem size_assembledFrom (size : Nat) (nodes : List CallNode) :
    (assembledFrom size nodes).size = size := by
  unfold assembledFrom
  induction nodes with
  | nil => simp
  | cons n nodes ih =>
    rw [List.foldr_cons, assemble, Array.size_setIfInBounds, size_moveAllOut, ih]

/-- A tree that is asked for by no call is where it would be without any moves. The induction is on the
calls: those that the first one made were asked for by none of the others. -/
theorem getElem?_assembledFrom (size : Nat) :
    ∀ (nodes : List CallNode), (∀ n ∈ nodes, n.children.toList.Nodup) →
      nodes.Pairwise (fun m n => ∀ j ∈ m.children.toList, j ∉ n.children.toList) →
      ∀ j, (∀ n ∈ nodes, j ∉ n.children.toList) →
        (assembledFrom size nodes)[j]? = (builtFrom size nodes)[j]?
  | [], _, _, _, _ => rfl
  | first :: rest, hnodup, hapart, j, hj => by
    rw [List.pairwise_cons] at hapart
    have hrest := getElem?_assembledFrom size rest
      (fun n hn => hnodup n (List.mem_cons_of_mem first hn)) hapart.2
    have htrees : (moveAllOut (assembledFrom size rest) first.children.toList).1
        = treesAt (builtFrom size rest) first.children := by
      rw [moveAllOut_fst (hnodup first List.mem_cons_self)]
      unfold treesAt
      refine List.filterMap_congr ?_
      intro child hchild
      rw [hrest child fun n hn => hapart.1 n hn child hchild]
    have hleft : (moveAllOut (assembledFrom size rest) first.children.toList).2[j]?
        = (builtFrom size rest)[j]? := by
      rw [getElem?_moveAllOut (hj first List.mem_cons_self)]
      exact hrest j fun n hn => hj n (List.mem_cons_of_mem first hn)
    show ((moveAllOut (assembledFrom size rest) first.children.toList).2.setIfInBounds first.id
        (some (.node first.summary
          (moveAllOut (assembledFrom size rest) first.children.toList).1)))[j]?
      = ((builtFrom size rest).setIfInBounds first.id
          (some (.node first.summary (treesAt (builtFrom size rest) first.children))))[j]?
    rw [htrees, Array.getElem?_setIfInBounds, Array.getElem?_setIfInBounds, hleft, size_moveAllOut,
      size_assembledFrom, size_builtFrom]

/-- No call is asked for by two callers. -/
theorem WellFormed.children_apart {t : Tracker} (hw : t.WellFormed) :
    t.nodes.toList.Pairwise fun m n => ∀ j ∈ m.children.toList, j ∉ n.children.toList := by
  rw [List.pairwise_iff_getElem]
  intro i k hi hk hlt j hm hn
  have hmade := (hw.mem_children i _ (Array.getElem?_eq_getElem hi) j).mp hm
  have hmade' := (hw.mem_children k _ (Array.getElem?_eq_getElem hk) j).mp hn
  have := hmade.unique hmade'
  omega

/-- The forest is read off the table of the trees. -/
theorem forest_eq_treesAt {t : Tracker} (hw : t.WellFormed) :
    t.forest = treesAt t.builtTrees t.roots := by
  have hnodup : t.roots.toList.Nodup := nodup_of_increasing hw.roots_increasing
  unfold forest
  rw [moveAllOut_fst hnodup, assembled_eq, builtTrees_eq]
  unfold treesAt
  refine List.filterMap_congr ?_
  intro root hroot
  rw [getElem?_assembledFrom _ _ _ hw.children_apart root]
  · -- a root has no caller that could have asked for it
    intro n hn hmem
    obtain ⟨k, hk⟩ := List.mem_iff_getElem?.mp hn
    rw [Array.getElem?_toList] at hk
    obtain ⟨child, hchild, hparent⟩ := (hw.mem_children k n hk root).mp hmem
    obtain ⟨child', hchild', hnone⟩ := (hw.mem_roots root).mp hroot
    rw [hchild] at hchild'
    injection hchild' with hchild'
    rw [hchild', hnone] at hparent
    cases hparent
  · intro n hn
    obtain ⟨k, hk⟩ := List.mem_iff_getElem?.mp hn
    rw [Array.getElem?_toList] at hk
    exact nodup_of_increasing (hw.children_increasing k n hk)

end Tracker

end Retrace
