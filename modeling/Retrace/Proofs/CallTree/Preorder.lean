import Retrace.Proofs.CallTree.Enclosing
import Retrace.Proofs.CallTree.Forest
import Mathlib.Algebra.GroupWithZero.Nat
import Mathlib.Data.List.Sort
/-!
# The forest shows every call once, in the order of the calls

What a forest should be is said by recursion from its roots: the tree of a call is what is shown of the
call, over the trees of the calls it made (`Tracker.Unfolds`). The forest that a tracker puts together
from the last call to the first is the unfolding of its roots (`Tracker.unfoldsAll_iff`).

Read in preorder, it gives the calls in the order of their numbers. Two facts make it so: the calls below
a call are those that it encloses (`Unfolds.mem_iff`), and of two calls with the same caller the first
one encloses none that comes after the second (`UnfoldsAll.increasing`). A list of numbers that
increases and has all numbers below some bound is the range of that bound.
-/

namespace Retrace

namespace CallTree

mutual

/-- A tree and the trees below it, in preorder. -/
def preorder : CallTree → List CallTree
  | node c ts => node c ts :: preorderAll ts

/-- The trees of a forest and the trees below them, in preorder. -/
def preorderAll : List CallTree → List CallTree
  | [] => []
  | t :: ts => t.preorder ++ preorderAll ts

end

/-! ## Counting -/

theorem countFrom_eq (counted : Nat) (pending : List CallTree) :
    countFrom counted pending = counted + totalCount pending := by
  fun_induction countFrom counted pending with
  | case1 counted => rfl
  | case2 counted t rest ih =>
    obtain ⟨c, ts⟩ := t
    rw [ih, totalCount_append, totalCount_reverse, totalCount, count, children]
    omega

/-- Counting without recursion gives the same number. -/
theorem size_eq_count (t : CallTree) : t.size = t.count := by
  rw [size, countFrom_eq, totalCount, totalCount, Nat.zero_add, Nat.add_zero]

theorem sum_size (ts : List CallTree) : (ts.map size).sum = totalCount ts := by
  induction ts with
  | nil => rfl
  | cons t ts ih => rw [List.map_cons, List.sum_cons, ih, totalCount, size_eq_count]

mutual

theorem length_preorder : ∀ t : CallTree, t.preorder.length = t.count
  | node c ts => by
    rw [preorder, List.length_cons, length_preorderAll ts, count, Nat.add_comm]

theorem length_preorderAll : ∀ ts : List CallTree, (preorderAll ts).length = totalCount ts
  | [] => rfl
  | t :: ts => by
    rw [preorderAll, List.length_append, length_preorder t, length_preorderAll ts, totalCount]

end

end CallTree

namespace Tracker

open CallTree (preorder preorderAll)

mutual

/-- Whether a tree is the unfolding of a call: what is shown of the call, over the unfoldings of the
calls it made. -/
inductive Unfolds (t : Tracker) : Nat → CallTree → Prop where
  | node {i : Nat} {n : CallNode} {ts : List CallTree} (hn : t.nodes[i]? = some n)
      (hts : UnfoldsAll t n.children.toList ts) : Unfolds t i (.node n.summary ts)

/-- Whether some trees are the unfoldings of some calls, in the same order. -/
inductive UnfoldsAll (t : Tracker) : List Nat → List CallTree → Prop where
  | nil : UnfoldsAll t [] []
  | cons {i : Nat} {tree : CallTree} {ids : List Nat} {ts : List CallTree} (h : Unfolds t i tree)
      (hs : UnfoldsAll t ids ts) : UnfoldsAll t (i :: ids) (tree :: ts)

end

variable {t : Tracker}

/-! ## The forest is the unfolding of the roots -/

mutual

/-- A call has one unfolding only. -/
theorem Unfolds.unique : ∀ {tree tree' : CallTree} {i : Nat}, t.Unfolds i tree →
    t.Unfolds i tree' → tree = tree'
  | .node _ ts, _, _, h, h' => by
    cases h with
    | node hn hts =>
      cases h' with
      | node hn' hts' =>
        rw [hn] at hn'
        injection hn' with hn'
        rw [← hn'] at hts' ⊢
        rw [hts.unique hts']

theorem UnfoldsAll.unique : ∀ {ts ts' : List CallTree} {ids : List Nat}, t.UnfoldsAll ids ts →
    t.UnfoldsAll ids ts' → ts = ts'
  | [], _, _, h, h' => by
    cases h
    cases h'
    rfl
  | _ :: _, _, _, h, h' => by
    cases h with
    | cons h hs =>
      cases h' with
      | cons h' hs' => rw [h.unique h', hs.unique hs']

end

theorem unfoldsAll_treesAt {built : Array (Option CallTree)} {ids : Array Nat}
    (h : ∀ i ∈ ids.toList, ∃ tree, built[i]? = some (some tree) ∧ t.Unfolds i tree) :
    t.UnfoldsAll ids.toList (treesAt built ids) := by
  unfold treesAt
  generalize ids.toList = ids at h ⊢
  induction ids with
  | nil => exact .nil
  | cons i ids ih =>
    obtain ⟨tree, hbuilt, hunfolds⟩ := h i List.mem_cons_self
    rw [List.filterMap_cons, hbuilt]
    exact .cons hunfolds (ih fun j hj => h j (List.mem_cons_of_mem i hj))

/-- The tree that is built of a call is its unfolding. The induction is on the number of calls from it
on: those that it made come later. -/
theorem WellFormed.exists_unfolds (hw : t.WellFormed) :
    ∀ (left : Nat) {i : Nat} {n : CallNode}, t.nodes[i]? = some n → t.nodes.size - i ≤ left →
      ∃ tree, t.builtTrees[i]? = some (some tree) ∧ t.Unfolds i tree
  | 0, i, n, hn, hleft => by
    have hlt : i < t.nodes.size := (Array.getElem?_eq_some_iff.mp hn).choose
    omega
  | left + 1, i, n, hn, hleft => by
    refine ⟨_, getElem?_builtTrees hw hn, .node hn (unfoldsAll_treesAt ?_)⟩
    intro child hchild
    have hmade := (hw.mem_children i n hn child).mp hchild
    have hlt := hw.lt_of_made hmade
    obtain ⟨m, hm, -⟩ := hmade
    exact hw.exists_unfolds left hm (by omega)

/-- The forest is the unfolding of the roots, and nothing else is. -/
theorem unfoldsAll_iff (hw : t.WellFormed) (ts : List CallTree) :
    t.UnfoldsAll t.roots.toList ts ↔ ts = t.forest := by
  have hforest : t.UnfoldsAll t.roots.toList t.forest := by
    rw [forest_eq_treesAt hw]
    refine unfoldsAll_treesAt ?_
    intro root hroot
    obtain ⟨n, hn, -⟩ := (hw.mem_roots root).mp hroot
    exact hw.exists_unfolds _ hn (Nat.le_refl _)
  constructor
  · intro h
    exact h.unique hforest
  · intro h
    rw [h]
    exact hforest

/-! ## The trees in it -/

theorem Unfolds.id_eq (hw : t.WellFormed) {i : Nat} {tree : CallTree} (h : t.Unfolds i tree) :
    tree.call.id = i := by
  cases h with
  | node hn _ => exact hw.id_eq i _ hn

mutual

/-- Every tree in an unfolding is the unfolding of its call. -/
theorem Unfolds.of_mem (hw : t.WellFormed) : ∀ {tree : CallTree} {i : Nat}, t.Unfolds i tree →
    ∀ view ∈ tree.preorder, t.Unfolds view.call.id view
  | .node c ts, i, h, view, hview => by
    rw [preorder] at hview
    rcases List.mem_cons.mp hview with rfl | hbelow
    · rw [h.id_eq hw]
      exact h
    · cases h with
      | node _ hts => exact hts.of_mem hw view hbelow

theorem UnfoldsAll.of_mem (hw : t.WellFormed) : ∀ {ts : List CallTree} {ids : List Nat},
    t.UnfoldsAll ids ts → ∀ view ∈ preorderAll ts, t.Unfolds view.call.id view
  | [], _, _, view, hview => by cases hview
  | tree :: ts, _, h, view, hview => by
    rw [preorderAll] at hview
    cases h with
    | cons h hs =>
      rcases List.mem_append.mp hview with hfirst | hrest
      · exact h.of_mem hw view hfirst
      · exact hs.of_mem hw view hrest

end

mutual

/-- The calls in the unfolding of a call are that call and those made during it. -/
theorem Unfolds.mem_iff (hw : t.WellFormed) : ∀ {tree : CallTree} {i : Nat}, t.Unfolds i tree →
    ∀ j, j ∈ tree.preorder.map (·.call.id) ↔ t.Within i j
  | .node c ts, i, h, j => by
    have hid := h.id_eq hw
    cases h with
    | @node _ n _ hn hts =>
      rw [preorder, List.map_cons, List.mem_cons, hid, hts.mem_iff hw j]
      refine Iff.trans ?_ Relation.ReflTransGen.cases_head_iff.symm
      refine or_congr eq_comm (exists_congr fun child => ?_)
      rw [hw.mem_children i n hn child]

theorem UnfoldsAll.mem_iff (hw : t.WellFormed) : ∀ {ts : List CallTree} {ids : List Nat},
    t.UnfoldsAll ids ts → ∀ j, j ∈ (preorderAll ts).map (·.call.id) ↔ ∃ i ∈ ids, t.Within i j
  | [], _, h, j => by
    cases h
    simp [preorderAll]
  | tree :: ts, _, h, j => by
    cases h with
    | cons h hs =>
      rw [preorderAll, List.map_append, List.mem_append, h.mem_iff hw j, hs.mem_iff hw j]
      simp

end

/-! ## Their order -/

/-- Of two calls with the same caller, or with none, neither was made during the other. -/
theorem WellFormed.not_within (hw : t.WellFormed) {a b : Nat} {m n : CallNode}
    (hm : t.nodes[a]? = some m) (hn : t.nodes[b]? = some n) (hp : m.parent = n.parent)
    (hne : a ≠ b) : ¬t.Within a b := by
  intro h
  rcases Relation.ReflTransGen.cases_tail h with he | ⟨p, hap, hpb⟩
  · exact hne he.symm
  · obtain ⟨n', hn', hparent⟩ := hpb
    rw [hn] at hn'
    injection hn' with hn'
    have hpa : t.Made p a := ⟨m, hm, by rw [hp, hn', hparent]⟩
    have := hw.lt_of_made hpa
    have := hw.le_of_within hap
    omega

/-- Calls in their order, none of which encloses another one. -/
abbrev Apart (t : Tracker) (ids : List Nat) : Prop :=
  ids.Pairwise fun a b => a < b ∧ ¬t.Within a b

theorem WellFormed.apart (hw : t.WellFormed) {ids : List Nat} {p : Option Nat}
    (hincreasing : ids.Pairwise (· < ·))
    (hparent : ∀ i ∈ ids, ∃ n : CallNode, t.nodes[i]? = some n ∧ n.parent = p) : t.Apart ids := by
  refine hincreasing.imp_of_mem ?_
  intro a b ha hb hlt
  obtain ⟨m, hm, hmp⟩ := hparent a ha
  obtain ⟨n, hn, hnp⟩ := hparent b hb
  exact ⟨hlt, hw.not_within hm hn (hmp.trans hnp.symm) (Nat.ne_of_lt hlt)⟩

mutual

/-- Read in preorder, an unfolding has the calls in their order. -/
theorem Unfolds.increasing (hw : t.WellFormed) (ho : t.CallOrdered) :
    ∀ {tree : CallTree} {i : Nat}, t.Unfolds i tree →
      (tree.preorder.map (·.call.id)).Pairwise (· < ·)
  | .node c ts, i, h => by
    have hid := h.id_eq hw
    cases h with
    | @node _ n _ hn hts =>
      have hmade : ∀ child ∈ n.children.toList, t.Made i child := fun child hchild =>
        (hw.mem_children i n hn child).mp hchild
      rw [preorder, List.map_cons, List.pairwise_cons]
      refine ⟨?_, hts.increasing hw ho (hw.apart (hw.children_increasing i n hn) hmade)⟩
      intro j hj
      obtain ⟨child, hchild, hwithin⟩ := (hts.mem_iff hw j).mp hj
      have := hw.lt_of_made (hmade child hchild)
      have := hw.le_of_within hwithin
      rw [hid]
      omega

/-- And so do the unfoldings of calls that are apart. A call made during the first one comes before the
second one, which the first one would enclose otherwise. -/
theorem UnfoldsAll.increasing (hw : t.WellFormed) (ho : t.CallOrdered) :
    ∀ {ts : List CallTree} {ids : List Nat}, t.UnfoldsAll ids ts → t.Apart ids →
      ((preorderAll ts).map (·.call.id)).Pairwise (· < ·)
  | [], _, _, _ => List.Pairwise.nil
  | tree :: ts, _, h, hapart => by
    cases h with
    | @cons i _ ids _ h hs =>
      obtain ⟨hfirst, hrest⟩ := List.pairwise_cons.mp hapart
      rw [preorderAll, List.map_append, List.pairwise_append]
      refine ⟨h.increasing hw ho, hs.increasing hw ho hrest, ?_⟩
      intro a ha b hb
      have hia := (h.mem_iff hw a).mp ha
      obtain ⟨next, hnext, hwithin⟩ := (hs.mem_iff hw b).mp hb
      obtain ⟨hlt, hnot⟩ := hfirst next hnext
      have hle := hw.le_of_within hwithin
      by_cases hbefore : a < next
      · omega
      · exact absurd (ho.within_of_le (Nat.le_of_lt hlt) (Nat.le_of_not_lt hbefore) hia) hnot

end

/-- Every call is a root or was made during one. -/
theorem WellFormed.exists_root (hw : t.WellFormed) (i : Nat) (hi : i < t.nodes.size) :
    ∃ root ∈ t.roots.toList, t.Within root i := by
  obtain ⟨n, hn⟩ : ∃ n, t.nodes[i]? = some n := ⟨_, Array.getElem?_eq_getElem hi⟩
  cases hp : n.parent with
  | none => exact ⟨i, (hw.mem_roots i).mpr ⟨n, hn, hp⟩, .refl⟩
  | some p =>
    have hlt := hw.parent_lt i p n hn hp
    obtain ⟨root, hroot, hwithin⟩ := hw.exists_root p (Nat.lt_trans hlt hi)
    exact ⟨root, hroot, hwithin.tail ⟨n, hn, hp⟩⟩
termination_by i

/-- Read in preorder, the forest has the calls in the order of their numbers. -/
theorem preorder_forest (hw : t.WellFormed) (ho : t.CallOrdered) :
    (preorderAll t.forest).map (·.call.id) = List.range t.nodes.size := by
  have hforest := (unfoldsAll_iff hw t.forest).mpr rfl
  have hapart := hw.apart hw.roots_increasing fun root hroot => (hw.mem_roots root).mp hroot
  refine (hforest.increasing hw ho hapart).eq_of_mem_iff List.pairwise_lt_range ?_
  intro j
  rw [hforest.mem_iff hw j, List.mem_range]
  constructor
  · intro h
    obtain ⟨root, hroot, hwithin⟩ := h
    rcases Relation.ReflTransGen.cases_tail hwithin with rfl | ⟨_, -, hmade⟩
    · obtain ⟨n, hn, -⟩ := (hw.mem_roots j).mp hroot
      exact (Array.getElem?_eq_some_iff.mp hn).choose
    · exact hmade.lt_size
  · exact hw.exists_root j

/-! ## The views of a tracker -/

theorem hierarchy_iff (hforest : t.UnfoldsAll t.roots.toList t.forest) (view : CallTree) :
    t.hierarchy? = some view ↔ ∃ root, t.roots[0]? = some root ∧ t.Unfolds root view := by
  unfold hierarchy?
  rw [← Array.getElem?_toList]
  generalize t.roots.toList = roots at hforest
  generalize t.forest = forest at hforest
  cases hforest with
  | nil => simp
  | @cons root tree _ _ h _ =>
    constructor
    · intro hview
      injection hview with hview
      exact ⟨root, rfl, hview ▸ h⟩
    · intro hview
      obtain ⟨root', hroot, hunfolds⟩ := hview
      injection hroot with hroot
      rw [List.head?_cons, h.unique (hroot ▸ hunfolds)]

/-- The views are those of the calls, in the order of the calls. -/
theorem calls_forest (hw : t.WellFormed) (ho : t.CallOrdered) :
    (preorderAll t.forest).map CallTree.call = t.nodes.toList.map CallNode.summary := by
  have hids := preorder_forest hw ho
  have hforest := (unfoldsAll_iff hw t.forest).mpr rfl
  have hlength : (preorderAll t.forest).length = t.nodes.toList.length := by
    have hlengths := congrArg List.length hids
    rw [List.length_map, List.length_range] at hlengths
    exact hlengths
  apply List.ext_getElem?
  intro i
  rw [List.getElem?_map, List.getElem?_map]
  by_cases hi : i < t.nodes.size
  · have hid : (preorderAll t.forest)[i]?.map (·.call.id) = some i := by
      rw [← List.getElem?_map, hids, List.getElem?_range hi]
    obtain ⟨view, hview, hid⟩ := Option.map_eq_some_iff.mp hid
    have hunfolds := hforest.of_mem hw view (List.mem_of_getElem? hview)
    rw [hid] at hunfolds
    cases hunfolds with
    | node hn _ =>
      rw [← Array.getElem?_toList] at hn
      rw [hview, hn]
      rfl
  · have hi : t.nodes.toList.length ≤ i := Nat.le_of_not_lt hi
    rw [List.getElem?_eq_none hi, List.getElem?_eq_none (hlength ▸ hi)]
    rfl

theorem maxDepth_eq (t : Tracker) :
    t.maxDepth = (t.nodes.toList.map (·.depth)).max?.getD 0 := by
  unfold maxDepth
  rw [← Array.foldl_toList]
  have hfold := List.foldl_max (l := t.nodes.toList.map (·.depth)) (a := 0)
  rw [List.foldl_map] at hfold
  rw [hfold, Nat.zero_max]

/-- **The forest is complete and faithful**, whatever the tracker was told. Read in preorder it has each
call once, in the order of the calls. What it shows of a call is what the tracker knows of it, and the
trees below are those of the calls that it made, in their order; so the forest is the unfolding of the
roots, and no other list of trees is. The sizes of its trees, which are counted without recursion, add
up to the number of calls; its first tree is that of the first root; and the greatest depth in it is
the one that the tracker tells. -/
theorem forest_unfolds (ops : List TrackerOperation) :
    let t := empty.run ops
    let views := preorderAll t.forest
    (views.map (·.call.id) = List.range t.totalCalls
      ∧ views.map CallTree.call = t.nodes.toList.map CallNode.summary)
    ∧ (∀ view ∈ views, ∃ n : CallNode, t.nodes[view.call.id]? = some n
        ∧ view.call = n.summary ∧ t.UnfoldsAll n.children.toList view.children)
    ∧ (∀ ts, t.UnfoldsAll t.roots.toList ts ↔ ts = t.forest)
    ∧ (t.forest.map CallTree.size).sum = t.totalCalls
    ∧ (∀ view : CallTree, view.size = view.count)
    ∧ (∀ view, t.hierarchy? = some view ↔ ∃ root, t.roots[0]? = some root ∧ t.Unfolds root view)
    ∧ t.maxDepth = (views.map (·.call.depth)).max?.getD 0 := by
  intro t views
  have hw : t.WellFormed := wellFormed_empty.run ops
  have ho : t.CallOrdered := callOrdered_empty.run wellFormed_empty ops
  have hids : views.map (·.call.id) = List.range t.nodes.size := preorder_forest hw ho
  have hcalls : views.map CallTree.call = t.nodes.toList.map CallNode.summary :=
    calls_forest hw ho
  have hforest := (unfoldsAll_iff hw t.forest).mpr rfl
  refine ⟨⟨hids, hcalls⟩, ?_, unfoldsAll_iff hw, ?_, CallTree.size_eq_count, ?_, ?_⟩
  · intro view hview
    have hunfolds := hforest.of_mem hw view hview
    obtain ⟨c, ts⟩ := view
    cases hunfolds with
    | node hn hts => exact ⟨_, hn, rfl, hts⟩
  · have hlength := congrArg List.length hids
    rw [List.length_map, List.length_range, CallTree.length_preorderAll] at hlength
    rw [CallTree.sum_size]
    exact hlength
  · intro view
    exact hierarchy_iff hforest view
  · have hdepths : views.map (·.call.depth) = t.nodes.toList.map (·.depth) := by
      have hmapped := congrArg (List.map CallSummary.depth) hcalls
      rw [List.map_map, List.map_map] at hmapped
      exact hmapped
    rw [hdepths]
    exact t.maxDepth_eq

/-- Two roots, the first of which called twice. -/
theorem forest_of_twoRoots :
    let ops := [.enter (.plain "f" 1), .enter (.plain "g" 2), .leave none 3, .enter (.plain "h" 4),
      .leave none 5, .leave none 6, .enter (.plain "f" 7)]
    let t := empty.run ops
    let views := preorderAll t.forest
    views.map (fun view => (view.call.id, view.call.name, view.call.depth))
      = [(0, "f", 0), (1, "g", 1), (2, "h", 1), (3, "f", 0)]
    ∧ ∃ view ∈ views, view.call.id = 0 ∧ t.UnfoldsAll [1, 2] view.children := by
  intro ops t views
  obtain ⟨⟨hids, hcalls⟩, hviews, -⟩ := forest_unfolds ops
  have hids : views.map (·.call.id) = List.range t.totalCalls := hids
  have hcalls : views.map CallTree.call = t.nodes.toList.map CallNode.summary := hcalls
  refine ⟨?_, ?_⟩
  · have hshown := congrArg (List.map fun c : CallSummary => (c.id, c.name, c.depth)) hcalls
    rw [List.map_map] at hshown
    refine hshown.trans ?_
    decide +kernel
  · have htotal : t.totalCalls = 4 := by decide +kernel
    have hchildren : t.nodes[0]?.map (·.children.toList) = some [1, 2] := by decide +kernel
    have hfirst : 0 ∈ views.map (·.call.id) := by
      rw [hids, htotal]
      decide
    obtain ⟨view, hview, hid⟩ := List.mem_map.mp hfirst
    obtain ⟨n, hn, -, hbelow⟩ := hviews view hview
    have hn : t.nodes[0]? = some n := hid ▸ hn
    rw [hn] at hchildren
    injection hchildren with hchildren
    exact ⟨view, hview, hid, hchildren ▸ hbelow⟩

end Tracker

end Retrace
