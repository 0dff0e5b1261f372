import Retrace.CallTree.Tracker
import Mathlib.Data.List.Nodup
import Mathlib.Logic.ExistsUnique
import Mathlib.Logic.Relation
/-!
# The tracker's redundant records agree

A tracker stores its tree several times over: each call knows its caller, its depth, the calls made
during it, whether it has returned and whether it is the active one, and the tracker knows the roots
and the stack of outstanding calls. `WellFormed` says how these records determine each other; it
holds of the empty tracker and is kept by `enter` and `leave`, the spurious return included.

Both moves are described by what they do to one node (`getElem?_enter`, `getElem?_leave`): a call adds
a node at the end and turns the active one into its caller; a return closes the active call and turns
its caller into the active one. That the stack is a chain of callers carries the rest: it puts a depth
on every outstanding call, so no call is outstanding twice, and a call that made an outstanding one is
outstanding itself (`WellFormed.hasReturned_of_made`).
-/

namespace Retrace

/-- A call without arguments. -/
def Call.plain (name : String) (step : Nat) : Call := ⟨name, [], step, none⟩

/-- What is told to a tracker. -/
inductive TrackerOperation where
  | enter (call : Call)
  | leave (value : Option Json.Value) (step : Nat)
  | reset

namespace Tracker

/-- The tracker after it was told something. -/
def perform (t : Tracker) : TrackerOperation → Tracker
  | .enter c => (t.enter c).1
  | .leave value step => (t.leave value step).1
  | .reset => empty

/-- The tracker after it was told several things. -/
def run (t : Tracker) (ops : List TrackerOperation) : Tracker := ops.foldl perform t

/-- Whether call `i` was made by call `p`. -/
def Made (t : Tracker) (p i : Nat) : Prop :=
  ∃ n : CallNode, t.nodes[i]? = some n ∧ n.parent = some p

theorem made_iff (t : Tracker) (p i : Nat) :
    t.Made p i ↔ t.nodes[i]?.map (·.parent) = some (some p) := by
  rw [Option.map_eq_some_iff]
  rfl

instance (t : Tracker) (p i : Nat) : Decidable (t.Made p i) :=
  decidable_of_iff _ (t.made_iff p i).symm

/-- How the records of a tracker determine each other. -/
structure WellFormed (t : Tracker) : Prop where
  id_eq : ∀ (i : Nat) (n : CallNode), t.nodes[i]? = some n → n.id = i
  /-- A call is made before the calls it makes. -/
  parent_lt : ∀ (i p : Nat) (n : CallNode), t.nodes[i]? = some n → n.parent = some p → p < i
  mem_children : ∀ (i : Nat) (n : CallNode), t.nodes[i]? = some n →
    ∀ j, j ∈ n.children.toList ↔ t.Made i j
  children_increasing : ∀ (i : Nat) (n : CallNode), t.nodes[i]? = some n →
    n.children.toList.Pairwise (· < ·)
  mem_roots : ∀ j, j ∈ t.roots.toList ↔ ∃ n : CallNode, t.nodes[j]? = some n ∧ n.parent = none
  roots_increasing : t.roots.toList.Pairwise (· < ·)
  depth_root : ∀ (i : Nat) (n : CallNode), t.nodes[i]? = some n → n.parent = none → n.depth = 0
  depth_child : ∀ (i p : Nat) (n m : CallNode), t.nodes[i]? = some n → n.parent = some p →
    t.nodes[p]? = some m → n.depth = m.depth + 1
  mem_outstanding : ∀ i, i ∈ t.outstanding ↔
    ∃ n : CallNode, t.nodes[i]? = some n ∧ n.hasReturned = false
  /-- Each outstanding call was made by the next one on the stack, and has as many calls below it on
  the stack as its depth says. -/
  chain : ∀ (k i : Nat) (n : CallNode), t.outstanding[k]? = some i → t.nodes[i]? = some n →
    n.parent = t.outstanding[k + 1]? ∧ n.depth + k + 1 = t.outstanding.length
  /-- The call at the bottom of the stack is the last root. -/
  bottom : t.outstanding ≠ [] → t.outstanding.getLast? = t.roots.toList.getLast?
  returned_iff : ∀ (i : Nat) (n : CallNode), t.nodes[i]? = some n →
    n.endStep.isSome = n.hasReturned ∧ n.returnText.isSome = n.hasReturned
  active_iff : ∀ (i : Nat) (n : CallNode), t.nodes[i]? = some n →
    (n.isActive = true ↔ t.outstanding.head? = some i)

theorem wellFormed_empty : empty.WellFormed := by
  constructor <;> simp [empty, Made]

namespace WellFormed

variable {t : Tracker}

theorem lt_of_outstanding (hw : t.WellFormed) {i : Nat} (hi : i ∈ t.outstanding) :
    i < t.nodes.size := by
  obtain ⟨n, hn, -⟩ := (hw.mem_outstanding i).mp hi
  exact (Array.getElem?_eq_some_iff.mp hn).choose

theorem lt_of_head (hw : t.WellFormed) {i : Nat} (hi : t.outstanding.head? = some i) :
    i < t.nodes.size :=
  hw.lt_of_outstanding (List.mem_of_head? hi)

/-- Only the call on top of the stack is active. -/
theorem isActive_eq_false (hw : t.WellFormed) {i : Nat} {n : CallNode} (hn : t.nodes[i]? = some n)
    (hi : t.outstanding.head? ≠ some i) : n.isActive = false := by
  cases ha : n.isActive with
  | false => rfl
  | true => exact absurd ((hw.active_iff i n hn).mp ha) hi

/-- A call is on the stack at most once: its place is fixed by its depth. -/
theorem not_mem_callers (hw : t.WellFormed) {i : Nat} {callers : List Nat}
    (ho : t.outstanding = i :: callers) : i ∉ callers := by
  intro hmem
  obtain ⟨k, hk⟩ := List.mem_iff_getElem?.mp hmem
  have hi : i ∈ t.outstanding := by
    rw [ho]
    exact List.mem_cons_self
  obtain ⟨n, hn, -⟩ := (hw.mem_outstanding i).mp hi
  have hfirst := (hw.chain 0 i n (by rw [ho]; rfl) hn).2
  have hlater := (hw.chain (k + 1) i n (by rw [ho]; exact hk) hn).2
  omega

end WellFormed

/-! ## A call -/

theorem getElem?_enter {t : Tracker} (hw : t.WellFormed) (c : Call) (i : Nat) :
    (t.enter c).1.nodes[i]?
      = if i = t.nodes.size then
          some (.ofCall t.nodes.size t.outstanding.length t.outstanding.head? c)
        else if t.outstanding.head? = some i then
          t.nodes[i]?.map (·.callingChild t.nodes.size)
        else t.nodes[i]? := by
  unfold enter
  cases hp : t.outstanding.head? with
  | none => simp only [Array.getElem?_push, reduceCtorEq, if_false]
  | some p =>
    have hlt := hw.lt_of_head hp
    simp only [Array.getElem?_modify, Array.getElem?_push, Option.some.injEq]
    by_cases hi : i = t.nodes.size
    · have hne : p ≠ i := by omega
      rw [if_neg hne, if_pos hi, if_pos hi]
    · simp only [if_neg hi]

theorem outstanding_enter (t : Tracker) (c : Call) :
    (t.enter c).1.outstanding = t.nodes.size :: t.outstanding := by
  unfold enter
  cases t.outstanding.head? <;> rfl

theorem size_enter (t : Tracker) (c : Call) : (t.enter c).1.nodes.size = t.nodes.size + 1 := by
  unfold enter
  cases t.outstanding.head? <;> simp

theorem enter_snd (t : Tracker) (c : Call) : (t.enter c).2 = t.nodes.size := rfl

theorem roots_enter (t : Tracker) (c : Call) :
    (t.enter c).1.roots
      = if t.outstanding = [] then t.roots.push t.nodes.size else t.roots := by
  unfold enter
  cases ho : t.outstanding with
  | nil => rfl
  | cons p callers => rfl

theorem getElem?_enter_new {t : Tracker} (hw : t.WellFormed) (c : Call) :
    (t.enter c).1.nodes[t.nodes.size]?
      = some (.ofCall t.nodes.size t.outstanding.length t.outstanding.head? c) := by
  rw [getElem?_enter hw, if_pos rfl]

/-- A node after a call is the new one, or an old one that is no longer active and may have gained a
child. -/
theorem enter_cases {t : Tracker} (hw : t.WellFormed) {c : Call} {i : Nat} {n : CallNode}
    (hn : (t.enter c).1.nodes[i]? = some n) :
    (i = t.nodes.size
      ∧ n = .ofCall t.nodes.size t.outstanding.length t.outstanding.head? c) ∨
    ∃ m, t.nodes[i]? = some m ∧ n = { m with
      children := if t.outstanding.head? = some i then m.children.push t.nodes.size else m.children
      isActive := false } := by
  rw [getElem?_enter hw] at hn
  split at hn
  next hi =>
    injection hn with hn
    exact Or.inl ⟨hi, hn.symm⟩
  next =>
    right
    split at hn
    next hhead =>
      obtain ⟨m, hm, rfl⟩ := Option.map_eq_some_iff.mp hn
      exact ⟨m, hm, by rw [if_pos hhead]; rfl⟩
    next hhead =>
      -- clearing the flag changes nothing in a node that is not on top of the stack
      have hidle := hw.isActive_eq_false hn hhead
      exact ⟨n, hn, by rw [if_neg hhead, ← hidle]⟩

theorem getElem?_enter_old {t : Tracker} (hw : t.WellFormed) (c : Call) {i : Nat} {m : CallNode}
    (hm : t.nodes[i]? = some m) :
    (t.enter c).1.nodes[i]? = some { m with
      children := if t.outstanding.head? = some i then m.children.push t.nodes.size else m.children
      isActive := false } := by
  have hlt : i < t.nodes.size := (Array.getElem?_eq_some_iff.mp hm).choose
  have hsome : ∃ n, (t.enter c).1.nodes[i]? = some n := by
    rw [getElem?_enter hw, if_neg (by omega), hm]
    split
    · exact ⟨_, rfl⟩
    · exact ⟨_, rfl⟩
  obtain ⟨n, hn⟩ := hsome
  rcases enter_cases hw hn with ⟨hi, -⟩ | ⟨m', hm', rfl⟩
  · omega
  · rw [hm] at hm'
    injection hm' with hm'
    rw [hn, hm']

/-- Who made whom after a call: as before, and the caller made the new call. -/
theorem made_enter {t : Tracker} (hw : t.WellFormed) (c : Call) (p j : Nat) :
    (t.enter c).1.Made p j
      ↔ t.Made p j ∨ (j = t.nodes.size ∧ t.outstanding.head? = some p) := by
  constructor
  · intro hmade
    obtain ⟨n, hn, hp⟩ := hmade
    rcases enter_cases hw hn with ⟨hj, rfl⟩ | ⟨m, hm, rfl⟩
    · exact Or.inr ⟨hj, hp⟩
    · exact Or.inl ⟨m, hm, hp⟩
  · intro hmade
    rcases hmade with ⟨m, hm, hp⟩ | ⟨rfl, hp⟩
    · exact ⟨_, getElem?_enter_old hw c hm, hp⟩
    · exact ⟨_, getElem?_enter_new hw c, hp⟩

theorem Made.lt_size {t : Tracker} {p j : Nat} (h : t.Made p j) : j < t.nodes.size := by
  obtain ⟨n, hn, -⟩ := h
  exact (Array.getElem?_eq_some_iff.mp hn).choose

/-- A call was made by one other call at most. -/
theorem Made.unique {t : Tracker} {p q j : Nat} (h : t.Made p j) (h' : t.Made q j) : p = q := by
  obtain ⟨n, hn, hp⟩ := h
  obtain ⟨m, hm, hq⟩ := h'
  rw [hn] at hm
  injection hm with hm
  rw [← hm, hp] at hq
  injection hq

theorem nodup_of_increasing {ids : List Nat} (h : ids.Pairwise (· < ·)) : ids.Nodup :=
  h.imp fun hlt he => absurd (he ▸ hlt) (Nat.lt_irrefl _)

theorem pairwise_push {a : Array Nat} {x : Nat} (ha : a.toList.Pairwise (· < ·))
    (hx : ∀ y ∈ a.toList, y < x) : (a.push x).toList.Pairwise (· < ·) := by
  rw [Array.toList_push, List.pairwise_append]
  refine ⟨ha, List.pairwise_singleton _ _, ?_⟩
  intro y hy z hz
  rw [List.mem_singleton] at hz
  rw [hz]
  exact hx y hy

/-- A call keeps the records in agreement. -/
theorem WellFormed.enter {t : Tracker} (hw : t.WellFormed) (c : Call) :
    (t.enter c).1.WellFormed where
  id_eq i n hn := by
    rcases enter_cases hw hn with ⟨rfl, rfl⟩ | ⟨m, hm, rfl⟩
    · rfl
    · exact hw.id_eq i m hm
  parent_lt i p n hn hp := by
    rcases enter_cases hw hn with ⟨rfl, rfl⟩ | ⟨m, hm, rfl⟩
    · exact hw.lt_of_head hp
    · exact hw.parent_lt i p m hm hp
  mem_children i n hn j := by
    rw [made_enter hw]
    rcases enter_cases hw hn with ⟨rfl, rfl⟩ | ⟨m, hm, rfl⟩
    · -- the new call has made none
      constructor
      · intro hj
        cases hj
      · intro hmade
        rcases hmade with ⟨m, hm, hp⟩ | ⟨-, hhead⟩
        · have := hw.parent_lt j t.nodes.size m hm hp
          have : j < t.nodes.size := Made.lt_size ⟨m, hm, hp⟩
          omega
        · exact absurd (hw.lt_of_head hhead) (Nat.lt_irrefl _)
    · rw [← hw.mem_children i m hm j]
      split
      next hhead => simp [hhead]
      next hhead => simp [hhead]
  children_increasing i n hn := by
    rcases enter_cases hw hn with ⟨rfl, rfl⟩ | ⟨m, hm, rfl⟩
    · exact List.Pairwise.nil
    · have hold := hw.children_increasing i m hm
      split
      · refine pairwise_push hold ?_
        intro j hj
        exact ((hw.mem_children i m hm j).mp hj).lt_size
      · exact hold
  mem_roots j := by
    have hnew : (∃ n : CallNode, (t.enter c).1.nodes[j]? = some n ∧ n.parent = none)
        ↔ j ∈ t.roots.toList ∨ (j = t.nodes.size ∧ t.outstanding = []) := by
      rw [hw.mem_roots j]
      constructor
      · intro hroot
        obtain ⟨n, hn, hp⟩ := hroot
        rcases enter_cases hw hn with ⟨hj, rfl⟩ | ⟨m, hm, rfl⟩
        · exact Or.inr ⟨hj, List.head?_eq_none_iff.mp hp⟩
        · exact Or.inl ⟨m, hm, hp⟩
      · intro hroot
        rcases hroot with ⟨m, hm, hp⟩ | ⟨rfl, ho⟩
        · exact ⟨_, getElem?_enter_old hw c hm, hp⟩
        · exact ⟨_, getElem?_enter_new hw c, by rw [ho]; rfl⟩
    rw [hnew, roots_enter]
    split
    next ho => simp [ho]
    next ho => simp [ho]
  roots_increasing := by
    rw [roots_enter]
    split
    · refine pairwise_push hw.roots_increasing ?_
      intro j hj
      obtain ⟨n, hn, -⟩ := (hw.mem_roots j).mp hj
      exact (Array.getElem?_eq_some_iff.mp hn).choose
    · exact hw.roots_increasing
  depth_root i n hn hp := by
    rcases enter_cases hw hn with ⟨rfl, rfl⟩ | ⟨m, hm, rfl⟩
    · have ho : t.outstanding = [] := List.head?_eq_none_iff.mp hp
      show t.outstanding.length = 0
      rw [ho]
      rfl
    · exact hw.depth_root i m hm hp
  depth_child i p n q hn hp hq := by
    rcases enter_cases hw hq with ⟨rfl, rfl⟩ | ⟨r, hr, rfl⟩
    · -- nobody has the new call as caller
      have hmade : (t.enter c).1.Made t.nodes.size i := ⟨n, hn, hp⟩
      rcases (made_enter hw c _ _).mp hmade with hold | ⟨-, hhead⟩
      · obtain ⟨m, hm, hp⟩ := hold
        have := hw.parent_lt i _ m hm hp
        have : i < t.nodes.size := Made.lt_size ⟨m, hm, hp⟩
        omega
      · exact absurd (hw.lt_of_head hhead) (Nat.lt_irrefl _)
    · rcases enter_cases hw hn with ⟨rfl, rfl⟩ | ⟨m, hm, rfl⟩
      · have hget : t.outstanding[0]? = some p := by
          rw [← List.head?_eq_getElem?]
          exact hp
        have := (hw.chain 0 p r hget hr).2
        show t.outstanding.length = r.depth + 1
        omega
      · exact hw.depth_child i p m r hm hp hr
  mem_outstanding i := by
    rw [outstanding_enter, List.mem_cons, hw.mem_outstanding i]
    constructor
    · intro hi
      rcases hi with rfl | ⟨m, hm, hr⟩
      · exact ⟨_, getElem?_enter_new hw c, rfl⟩
      · exact ⟨_, getElem?_enter_old hw c hm, hr⟩
    · intro hi
      obtain ⟨n, hn, hr⟩ := hi
      rcases enter_cases hw hn with ⟨hi, -⟩ | ⟨m, hm, rfl⟩
      · exact Or.inl hi
      · exact Or.inr ⟨m, hm, hr⟩
  chain k i n hk hn := by
    rw [outstanding_enter] at hk ⊢
    -- the new call is on top, and every other one is a place further down
    cases k with
    | zero =>
      have hi : t.nodes.size = i := by simpa using hk
      rw [← hi, getElem?_enter_new hw] at hn
      injection hn with hn
      rw [← hn]
      exact ⟨List.head?_eq_getElem?, rfl⟩
    | succ k =>
      have hk : t.outstanding[k]? = some i := hk
      have hlt := hw.lt_of_outstanding (List.mem_of_getElem? hk)
      rcases enter_cases hw hn with ⟨hi, -⟩ | ⟨m, hm, rfl⟩
      · omega
      · obtain ⟨hp, hd⟩ := hw.chain k i m hk hm
        refine ⟨hp, ?_⟩
        show m.depth + (k + 1) + 1 = t.outstanding.length + 1
        omega
  bottom _ := by
    rw [outstanding_enter, roots_enter]
    split
    next ho =>
      rw [ho]
      simp
    next ho =>
      rw [List.getLast?_cons_of_ne_nil ho]
      exact hw.bottom ho
  returned_iff i n hn := by
    rcases enter_cases hw hn with ⟨rfl, rfl⟩ | ⟨m, hm, rfl⟩
    · exact ⟨rfl, rfl⟩
    · exact hw.returned_iff i m hm
  active_iff i n hn := by
    rw [outstanding_enter]
    rcases enter_cases hw hn with ⟨rfl, rfl⟩ | ⟨m, hm, rfl⟩
    · exact ⟨fun _ => rfl, fun _ => rfl⟩
    · have hlt : i < t.nodes.size := (Array.getElem?_eq_some_iff.mp hm).choose
      constructor
      · intro ha
        cases ha
      · intro hhead
        have : t.nodes.size = i := by simpa using hhead
        omega

/-! ## A return -/

theorem leave_of_nil {t : Tracker} (ho : t.outstanding = []) (value : Option Json.Value)
    (step : Nat) : t.leave value step = (t, none) := by
  unfold leave
  rw [ho]

theorem size_leave (t : Tracker) (value : Option Json.Value) (step : Nat) :
    (t.leave value step).1.nodes.size = t.nodes.size := by
  unfold leave
  cases t.outstanding with
  | nil => rfl
  | cons id callers => cases callers <;> simp

section Leave

variable {t : Tracker} {id : Nat} {callers : List Nat}

theorem roots_leave (ho : t.outstanding = id :: callers) (value : Option Json.Value) (step : Nat) :
    (t.leave value step).1.roots = t.roots := by
  unfold leave
  rw [ho]

theorem outstanding_leave (ho : t.outstanding = id :: callers) (value : Option Json.Value)
    (step : Nat) : (t.leave value step).1.outstanding = callers := by
  unfold leave
  rw [ho]

theorem leave_snd (ho : t.outstanding = id :: callers) (value : Option Json.Value) (step : Nat) :
    (t.leave value step).2 = some id := by
  unfold leave
  rw [ho]

theorem getElem?_leave (hw : t.WellFormed) (ho : t.outstanding = id :: callers)
    (value : Option Json.Value) (step i : Nat) :
    (t.leave value step).1.nodes[i]?
      = if i = id then t.nodes[i]?.map (·.returning value step)
        else t.nodes[i]?.map fun n => { n with isActive := decide (callers.head? = some i) } := by
  have hidle : ∀ n : CallNode, i ≠ id → t.nodes[i]? = some n → n.isActive = false := by
    intro n hi hn
    refine hw.isActive_eq_false hn ?_
    intro hhead
    rw [ho] at hhead
    injection hhead with hhead
    exact hi hhead.symm
  have hne := hw.not_mem_callers ho
  unfold leave
  rw [ho]
  -- without a caller nothing is activated, and no other node was active
  cases callers with
  | nil =>
    simp only [Array.getElem?_modify]
    by_cases hi : i = id
    · rw [if_pos hi.symm, if_pos hi]
    · rw [if_neg (fun h => hi h.symm), if_neg hi]
      cases hn : t.nodes[i]? with
      | none => rfl
      | some n =>
        have := hidle n hi hn
        simp [← this]
  | cons caller rest =>
    simp only [Array.getElem?_modify, List.head?_cons, Option.some.injEq]
    by_cases hi : i = id
    · have hc : caller ≠ i := by
        intro hc
        subst hc
        exact hne (hi ▸ List.mem_cons_self)
      rw [if_neg hc, if_pos hi.symm, if_pos hi]
    · rw [if_neg (fun h : id = i => hi h.symm), if_neg hi]
      cases hn : t.nodes[i]? with
      | none => split <;> rfl
      | some n =>
        split
        next hc => simp [hc, CallNode.resuming]
        next hc =>
          have := hidle n hi hn
          simp [hc, ← this]

/-- A node after a return is the call that returned, or another one that is active if it is on top of
the stack now. -/
theorem leave_cases (hw : t.WellFormed) (ho : t.outstanding = id :: callers)
    {value : Option Json.Value} {step i : Nat} {n : CallNode}
    (hn : (t.leave value step).1.nodes[i]? = some n) :
    ∃ m, t.nodes[i]? = some m ∧
      ((i = id ∧ n = m.returning value step) ∨
        (i ≠ id ∧ n = { m with isActive := decide (callers.head? = some i) })) := by
  rw [getElem?_leave hw ho] at hn
  split at hn
  next hi =>
    obtain ⟨m, hm, rfl⟩ := Option.map_eq_some_iff.mp hn
    exact ⟨m, hm, Or.inl ⟨hi, rfl⟩⟩
  next hi =>
    obtain ⟨m, hm, rfl⟩ := Option.map_eq_some_iff.mp hn
    exact ⟨m, hm, Or.inr ⟨hi, rfl⟩⟩

/-- What a return leaves alone in every node: whose call it is, where it stands and whom it called. -/
theorem leave_frame (hw : t.WellFormed) (ho : t.outstanding = id :: callers)
    {value : Option Json.Value} {step i : Nat} {n : CallNode}
    (hn : (t.leave value step).1.nodes[i]? = some n) :
    ∃ m, t.nodes[i]? = some m ∧ n.id = m.id ∧ n.parent = m.parent ∧ n.depth = m.depth
      ∧ n.children = m.children := by
  obtain ⟨m, hm, ⟨-, rfl⟩ | ⟨-, rfl⟩⟩ := leave_cases hw ho hn
  · exact ⟨m, hm, rfl, rfl, rfl, rfl⟩
  · exact ⟨m, hm, rfl, rfl, rfl, rfl⟩

theorem exists_leave (hw : t.WellFormed) (ho : t.outstanding = id :: callers)
    (value : Option Json.Value) (step : Nat) {i : Nat} {m : CallNode} (hm : t.nodes[i]? = some m) :
    ∃ n, (t.leave value step).1.nodes[i]? = some n ∧ n.parent = m.parent := by
  rw [getElem?_leave hw ho, hm]
  split
  · exact ⟨_, rfl, rfl⟩
  · exact ⟨_, rfl, rfl⟩

theorem exists_parent_leave (hw : t.WellFormed) (ho : t.outstanding = id :: callers)
    (value : Option Json.Value) (step i : Nat) (p : Option Nat) :
    (∃ n : CallNode, (t.leave value step).1.nodes[i]? = some n ∧ n.parent = p)
      ↔ ∃ n : CallNode, t.nodes[i]? = some n ∧ n.parent = p := by
  constructor
  · intro hi
    obtain ⟨n, hn, hp⟩ := hi
    obtain ⟨m, hm, -, hpar, -, -⟩ := leave_frame hw ho hn
    exact ⟨m, hm, hpar ▸ hp⟩
  · intro hi
    obtain ⟨m, hm, hp⟩ := hi
    obtain ⟨n, hn, hpar⟩ := exists_leave hw ho value step hm
    exact ⟨n, hn, hpar ▸ hp⟩

theorem made_leave (hw : t.WellFormed) (ho : t.outstanding = id :: callers)
    (value : Option Json.Value) (step p i : Nat) :
    (t.leave value step).1.Made p i ↔ t.Made p i :=
  exists_parent_leave hw ho value step i (some p)

/-- A return of an outstanding call keeps the records in agreement. -/
theorem WellFormed.leave_cons (hw : t.WellFormed) (ho : t.outstanding = id :: callers)
    (value : Option Json.Value) (step : Nat) : (t.leave value step).1.WellFormed where
  id_eq i n hn := by
    obtain ⟨m, hm, hid, -⟩ := leave_frame hw ho hn
    rw [hid]
    exact hw.id_eq i m hm
  parent_lt i p n hn hp := by
    obtain ⟨m, hm, -, hpar, -⟩ := leave_frame hw ho hn
    exact hw.parent_lt i p m hm (hpar ▸ hp)
  mem_children i n hn j := by
    obtain ⟨m, hm, -, -, -, hch⟩ := leave_frame hw ho hn
    rw [made_leave hw ho, hch]
    exact hw.mem_children i m hm j
  children_increasing i n hn := by
    obtain ⟨m, hm, -, -, -, hch⟩ := leave_frame hw ho hn
    rw [hch]
    exact hw.children_increasing i m hm
  mem_roots j := by
    rw [roots_leave ho, exists_parent_leave hw ho]
    exact hw.mem_roots j
  roots_increasing := by
    rw [roots_leave ho]
    exact hw.roots_increasing
  depth_root i n hn hp := by
    obtain ⟨m, hm, -, hpar, hd, -⟩ := leave_frame hw ho hn
    rw [hd]
    exact hw.depth_root i m hm (hpar ▸ hp)
  depth_child i p n q hn hp hq := by
    obtain ⟨m, hm, -, hpar, hd, -⟩ := leave_frame hw ho hn
    obtain ⟨r, hr, -, -, hdr, -⟩ := leave_frame hw ho hq
    rw [hd, hdr]
    exact hw.depth_child i p m r hm (hpar ▸ hp) hr
  mem_outstanding i := by
    rw [outstanding_leave ho]
    constructor
    · intro hi
      have hmem : i ∈ t.outstanding := by
        rw [ho]
        exact List.mem_cons_of_mem _ hi
      have hne : i ≠ id := by
        intro he
        subst he
        exact hw.not_mem_callers ho hi
      obtain ⟨m, hm, hr⟩ := (hw.mem_outstanding i).mp hmem
      refine ⟨{ m with isActive := decide (callers.head? = some i) }, ?_, hr⟩
      rw [getElem?_leave hw ho, if_neg hne, hm]
      rfl
    · intro hi
      obtain ⟨n, hn, hr⟩ := hi
      obtain ⟨m, hm, ⟨-, rfl⟩ | ⟨hne, rfl⟩⟩ := leave_cases hw ho hn
      · -- the call that returned is marked so
        cases hr
      · have hmem := (hw.mem_outstanding i).mpr ⟨m, hm, hr⟩
        rw [ho] at hmem
        rcases List.mem_cons.mp hmem with hi | hi
        · exact absurd hi hne
        · exact hi
  chain k i n hk hn := by
    rw [outstanding_leave ho] at hk ⊢
    -- every call still outstanding was a place further down
    obtain ⟨m, hm, -, hpar, hd, -⟩ := leave_frame hw ho hn
    have hk : t.outstanding[k + 1]? = some i := by
      rw [ho]
      exact hk
    obtain ⟨hp, hlen⟩ := hw.chain (k + 1) i m hk hm
    rw [ho] at hp hlen
    refine ⟨hpar.trans hp, ?_⟩
    rw [hd]
    have : (id :: callers).length = callers.length + 1 := rfl
    omega
  bottom hne := by
    rw [outstanding_leave ho] at hne ⊢
    rw [roots_leave ho, ← hw.bottom (by rw [ho]; exact List.cons_ne_nil _ _), ho]
    rw [List.getLast?_cons_of_ne_nil hne]
  returned_iff i n hn := by
    obtain ⟨m, hm, ⟨-, rfl⟩ | ⟨-, rfl⟩⟩ := leave_cases hw ho hn
    · exact ⟨rfl, rfl⟩
    · exact hw.returned_iff i m hm
  active_iff i n hn := by
    rw [outstanding_leave ho]
    obtain ⟨m, hm, ⟨rfl, rfl⟩ | ⟨-, rfl⟩⟩ := leave_cases hw ho hn
    · constructor
      · intro ha
        cases ha
      · intro hhead
        exact absurd (List.mem_of_head? hhead) (hw.not_mem_callers ho)
    · exact decide_eq_true_iff

end Leave

theorem WellFormed.leave {t : Tracker} (hw : t.WellFormed) (value : Option Json.Value)
    (step : Nat) : (t.leave value step).1.WellFormed := by
  cases ho : t.outstanding with
  | nil =>
    rw [leave_of_nil ho]
    exact hw
  | cons id callers => exact hw.leave_cons ho value step

/-! ## Whole runs -/

theorem WellFormed.perform {t : Tracker} (hw : t.WellFormed) (op : TrackerOperation) :
    (t.perform op).WellFormed := by
  cases op with
  | enter c => exact hw.enter c
  | leave value step => exact hw.leave value step
  | reset => exact wellFormed_empty

theorem WellFormed.run {t : Tracker} (hw : t.WellFormed) (ops : List TrackerOperation) :
    (t.run ops).WellFormed := by
  induction ops generalizing t with
  | nil => exact hw
  | cons op ops ih => exact ih (hw.perform op)

/-! ## What the records say together -/

namespace WellFormed

variable {t : Tracker}

theorem lt_of_made (hw : t.WellFormed) {p i : Nat} (h : t.Made p i) : p < i := by
  obtain ⟨n, hn, hp⟩ := h
  exact hw.parent_lt i p n hn hp

theorem exists_caller (hw : t.WellFormed) {p i : Nat} (h : t.Made p i) :
    ∃ m : CallNode, t.nodes[p]? = some m := by
  exact ⟨_, Array.getElem?_eq_getElem (Nat.lt_trans (hw.lt_of_made h) h.lt_size)⟩

/-- A call stands exactly once among the calls that its caller made. -/
theorem count_children (hw : t.WellFormed) {p i : Nat} (h : t.Made p i) {m : CallNode}
    (hm : t.nodes[p]? = some m) : m.children.toList.count i = 1 := by
  have hmem : i ∈ m.children.toList := (hw.mem_children p m hm i).mpr h
  have hnodup := nodup_of_increasing (hw.children_increasing p m hm)
  exact List.nodup_iff_count_eq_one.mp hnodup i hmem

theorem not_outstanding (hw : t.WellFormed) {i : Nat} {n : CallNode}
    (hn : t.nodes[i]? = some n) (hr : n.hasReturned = true) : i ∉ t.outstanding := by
  intro hmem
  obtain ⟨m, hm, hout⟩ := (hw.mem_outstanding i).mp hmem
  rw [hn] at hm
  injection hm with hm
  rw [← hm, hr] at hout
  cases hout

theorem hasReturned_of_not_outstanding (hw : t.WellFormed) {i : Nat} {n : CallNode}
    (hn : t.nodes[i]? = some n) (hi : i ∉ t.outstanding) : n.hasReturned = true := by
  cases hr : n.hasReturned with
  | true => rfl
  | false => exact absurd ((hw.mem_outstanding i).mpr ⟨n, hn, hr⟩) hi

/-- The caller of an outstanding call is outstanding. -/
theorem caller_outstanding (hw : t.WellFormed) {p i : Nat} (hi : i ∈ t.outstanding) (h : t.Made p i) :
    p ∈ t.outstanding := by
  obtain ⟨k, hk⟩ := List.mem_iff_getElem?.mp hi
  obtain ⟨n, hn, hp⟩ := h
  have hnext := (hw.chain k i n hk hn).1
  rw [hp] at hnext
  exact List.mem_of_getElem? hnext.symm

/-- A call made during a call that has returned has returned, as callers of outstanding calls are
outstanding. -/
theorem hasReturned_of_made (hw : t.WellFormed) {p i : Nat} {m n : CallNode}
    (hm : t.nodes[p]? = some m) (hn : t.nodes[i]? = some n) (hp : n.parent = some p)
    (hr : m.hasReturned = true) : n.hasReturned = true := by
  refine hw.hasReturned_of_not_outstanding hn ?_
  intro hi
  exact hw.not_outstanding hm hr (hw.caller_outstanding hi ⟨n, hn, hp⟩)

theorem hasReturned_of_transGen (hw : t.WellFormed) {a d : Nat} (h : Relation.TransGen t.Made a d) :
    ∀ m n : CallNode, t.nodes[a]? = some m → t.nodes[d]? = some n → m.hasReturned = true →
      n.hasReturned = true := by
  -- down from the call that has returned, one caller at a time
  induction h with
  | single hmade =>
    intro m n hm hn hr
    obtain ⟨n', hn', hp⟩ := hmade
    rw [hn] at hn'
    injection hn' with hn'
    exact hw.hasReturned_of_made hm hn (hn' ▸ hp) hr
  | tail _ hmade ih =>
    intro m n hm hn hr
    obtain ⟨b, hb⟩ := hw.exists_caller hmade
    obtain ⟨n', hn', hp⟩ := hmade
    rw [hn] at hn'
    injection hn' with hn'
    exact hw.hasReturned_of_made hb hn (hn' ▸ hp) (ih m b hm hb hr)

/-- Counted from the bottom of the stack, the place of an outstanding call is its depth. -/
theorem depth_of_reverse (hw : t.WellFormed) {k i : Nat} {n : CallNode}
    (hk : t.outstanding.reverse[k]? = some i) (hn : t.nodes[i]? = some n) : n.depth = k := by
  have hlt : k < t.outstanding.length := by
    have := (List.getElem?_eq_some_iff.mp hk).choose
    rwa [List.length_reverse] at this
  rw [List.getElem?_reverse hlt] at hk
  have := (hw.chain _ i n hk hn).2
  omega

/-- While a call is outstanding, exactly one call is active. -/
theorem existsUnique_active (hw : t.WellFormed) (ho : t.outstanding ≠ []) :
    ∃! i : Nat, ∃ n : CallNode, t.nodes[i]? = some n ∧ n.isActive = true := by
  obtain ⟨id, callers, hcons⟩ := List.exists_cons_of_ne_nil ho
  have hmem : id ∈ t.outstanding := by
    rw [hcons]
    exact List.mem_cons_self
  obtain ⟨m, hm, -⟩ := (hw.mem_outstanding id).mp hmem
  refine ⟨id, ⟨m, hm, (hw.active_iff id m hm).mpr (by rw [hcons]; rfl)⟩, ?_⟩
  intro j hj
  obtain ⟨n, hn, ha⟩ := hj
  have hhead := (hw.active_iff j n hn).mp ha
  rw [hcons] at hhead
  injection hhead with hhead
  exact hhead.symm

end WellFormed

/-- **The records of a tracker agree**, whatever it was told: they are well-formed; every call with a
caller stands exactly once among the calls of its caller, which is there, and in no other list; the
stack, read from its bottom, has the call of depth `k` at place `k`; whatever was called during a call
that has returned has returned; and exactly one call is active while one is outstanding, and none
otherwise. -/
theorem run_wellFormed (ops : List TrackerOperation) :
    let t := empty.run ops
    t.WellFormed
    ∧ (∀ p i, t.Made p i → ∃ m : CallNode, t.nodes[p]? = some m ∧ m.children.toList.count i = 1)
    ∧ (∀ (p i : Nat) (m : CallNode), t.nodes[p]? = some m → ¬t.Made p i → i ∉ m.children.toList)
    ∧ (∀ (k i : Nat) (n : CallNode), t.outstanding.reverse[k]? = some i → t.nodes[i]? = some n →
        n.depth = k)
    ∧ (∀ a d, Relation.TransGen t.Made a d → ∀ m n : CallNode, t.nodes[a]? = some m →
        t.nodes[d]? = some n → m.hasReturned = true → n.hasReturned = true)
    ∧ (t.outstanding ≠ [] → ∃! i : Nat, ∃ n : CallNode, t.nodes[i]? = some n ∧ n.isActive = true)
    ∧ (t.outstanding = [] → ∀ (i : Nat) (n : CallNode), t.nodes[i]? = some n →
        n.isActive = false) := by
  intro t
  have hw : t.WellFormed := wellFormed_empty.run ops
  refine ⟨hw, ?_, ?_, ?_, ?_, hw.existsUnique_active, ?_⟩
  · intro p i hmade
    obtain ⟨m, hm⟩ := hw.exists_caller hmade
    exact ⟨m, hm, hw.count_children hmade hm⟩
  · intro p i m hm hnot hmem
    exact hnot ((hw.mem_children p m hm i).mp hmem)
  · intro k i n hk hn
    exact hw.depth_of_reverse hk hn
  · intro a d hdesc m n hm hn hr
    exact hw.hasReturned_of_transGen hdesc m n hm hn hr
  · intro ho i n hn
    refine hw.isActive_eq_false hn ?_
    rw [ho]
    intro hhead
    cases hhead

end Tracker

end Retrace
