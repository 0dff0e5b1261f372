import Retrace.Proofs.CallTree.Arena
/-!
# Which calls were made during which

A call encloses the calls that it made and those that they made. The stack tells the same: what lies
below an outstanding call are the calls that enclose it (`WellFormed.encloses_top_iff`). As nobody's
caller ever changes, what encloses a call is settled when it is made (`WellFormed.encloses_run`).

The number of a call is its place in the order of the calls, and the calls made during one call have
the numbers right after its own: whoever makes the next call is the last one made, or encloses that
(`CallOrdered.caller_within`). So if a call encloses a later one, it encloses all between the two
(`CallOrdered.within_of_le`).
-/

namespace Retrace

namespace Tracker

/-- Whether call `d` was made during call `a`: by it, or by a call made during it. -/
abbrev Encloses (t : Tracker) (a d : Nat) : Prop := Relation.TransGen t.Made a d

/-- Whether call `d` is call `a` or was made during it. -/
abbrev Within (t : Tracker) (a d : Nat) : Prop := Relation.ReflTransGen t.Made a d

theorem Encloses.lt_size {t : Tracker} {a d : Nat} (h : t.Encloses a d) : d < t.nodes.size := by
  cases h with
  | single hmade => exact hmade.lt_size
  | tail _ hmade => exact hmade.lt_size

theorem Encloses.exists_node {t : Tracker} {a d : Nat} (h : t.Encloses a d) :
    ∃ n : CallNode, t.nodes[d]? = some n :=
  ⟨_, Array.getElem?_eq_getElem h.lt_size⟩

namespace WellFormed

variable {t : Tracker} {a d i p : Nat}

theorem lt_of_encloses (hw : t.WellFormed) (h : t.Encloses a d) : a < d := by
  induction h with
  | single hmade => exact hw.lt_of_made hmade
  | tail _ hmade ih => exact Nat.lt_trans ih (hw.lt_of_made hmade)

theorem le_of_within (hw : t.WellFormed) (h : t.Within a d) : a ≤ d := by
  rcases Relation.reflTransGen_iff_eq_or_transGen.mp h with rfl | henclosed
  · exact Nat.le_refl d
  · exact Nat.le_of_lt (hw.lt_of_encloses henclosed)

/-! ## The stack -/

theorem outstanding_of_encloses (hw : t.WellFormed) (hd : d ∈ t.outstanding)
    (h : t.Encloses a d) : a ∈ t.outstanding := by
  -- up from the outstanding call, one caller at a time
  induction h using Relation.TransGen.head_induction_on with
  | single hmade => exact hw.caller_outstanding hd hmade
  | head hmade _ ih => exact hw.caller_outstanding ih hmade

/-- A call further down on the stack encloses one further up. -/
theorem encloses_of_below (hw : t.WellFormed) {k : Nat} (hd : t.outstanding[k]? = some d) :
    ∀ {j : Nat}, t.outstanding[k + j + 1]? = some a → t.Encloses a d := by
  obtain ⟨n, hn, -⟩ := (hw.mem_outstanding d).mp (List.mem_of_getElem? hd)
  have hcaller : ∀ {b c l : Nat}, t.outstanding[l]? = some c → t.outstanding[l + 1]? = some b →
      t.Made b c := by
    intro b c l hc hb
    obtain ⟨m, hm, -⟩ := (hw.mem_outstanding c).mp (List.mem_of_getElem? hc)
    exact ⟨m, hm, (hw.chain l c m hc hm).1.trans hb⟩
  intro j
  induction j generalizing a with
  | zero =>
    intro ha
    exact .single (hcaller hd ha)
  | succ j ih =>
    intro ha
    have hlt : k + j + 1 < t.outstanding.length := by
      have := (List.getElem?_eq_some_iff.mp ha).choose
      omega
    exact .head (hcaller (List.getElem?_eq_getElem hlt) ha) (ih (List.getElem?_eq_getElem hlt))

/-- What encloses the call on top of the stack is what lies below it. -/
theorem encloses_top_iff (hw : t.WellFormed) {callers : List Nat}
    (ho : t.outstanding = d :: callers) : t.Encloses a d ↔ a ∈ callers := by
  constructor
  · intro h
    have hmem := hw.outstanding_of_encloses (by rw [ho]; exact List.mem_cons_self) h
    have hlt := hw.lt_of_encloses h
    rw [ho] at hmem
    rcases List.mem_cons.mp hmem with rfl | hcallers
    · exact absurd hlt (Nat.lt_irrefl a)
    · exact hcallers
  · intro ha
    obtain ⟨j, hj⟩ := List.mem_iff_getElem?.mp ha
    refine hw.encloses_of_below (k := 0) (by rw [ho]; rfl) (j := j) ?_
    rw [ho, Nat.zero_add]
    exact hj

end WellFormed

/-! ## What later moves leave alone -/

theorem made_leave_iff {t : Tracker} (hw : t.WellFormed) (value : Option Json.Value)
    (step p i : Nat) : (t.leave value step).1.Made p i ↔ t.Made p i := by
  cases ho : t.outstanding with
  | nil => rw [leave_of_nil ho]
  | cons id callers => exact made_leave hw ho value step p i

theorem size_le_perform (t : Tracker) {op : TrackerOperation} (hop : op ≠ .reset) :
    t.nodes.size ≤ (t.perform op).nodes.size := by
  cases op with
  | enter c =>
    show t.nodes.size ≤ (t.enter c).1.nodes.size
    rw [size_enter]
    exact Nat.le_succ _
  | leave value step => exact Nat.le_of_eq (t.size_leave value step).symm
  | reset => exact absurd rfl hop

/-- Nobody's caller changes. -/
theorem made_perform {t : Tracker} (hw : t.WellFormed) {op : TrackerOperation} (hop : op ≠ .reset)
    {p i : Nat} (hi : i < t.nodes.size) : (t.perform op).Made p i ↔ t.Made p i := by
  cases op with
  | enter c =>
    show (t.enter c).1.Made p i ↔ t.Made p i
    rw [made_enter hw]
    constructor
    · intro h
      rcases h with hold | ⟨rfl, -⟩
      · exact hold
      · exact absurd hi (Nat.lt_irrefl _)
    · exact Or.inl
  | leave value step => exact made_leave_iff hw value step p i
  | reset => exact absurd rfl hop

/-- What was made by whom up to some call tells what encloses that call. -/
theorem Encloses.congr {t t' : Tracker} (hw : t.WellFormed) {bound : Nat}
    (hmade : ∀ p i, i < bound → t.Made p i → t'.Made p i) {a d : Nat} (hd : d < bound)
    (h : t.Encloses a d) : t'.Encloses a d := by
  induction h with
  | single hlast => exact .single (hmade _ _ hd hlast)
  | tail _ hlast ih =>
    have hlt := hw.lt_of_made hlast
    exact .tail (ih (Nat.lt_trans hlt hd)) (hmade _ _ hd hlast)

namespace WellFormed

variable {t : Tracker} {a d : Nat}

theorem encloses_perform (hw : t.WellFormed) {op : TrackerOperation} (hop : op ≠ .reset)
    (hd : d < t.nodes.size) : (t.perform op).Encloses a d ↔ t.Encloses a d :=
  ⟨Encloses.congr (hw.perform op) (fun _ _ hi => (made_perform hw hop hi).mp) hd,
    Encloses.congr hw (fun _ _ hi => (made_perform hw hop hi).mpr) hd⟩

/-- What encloses a call is settled when it is made. -/
theorem encloses_run (hw : t.WellFormed) {later : List TrackerOperation} (hlater : .reset ∉ later)
    (hd : d < t.nodes.size) : (t.run later).Encloses a d ↔ t.Encloses a d := by
  induction later generalizing t with
  | nil => exact Iff.rfl
  | cons op later ih =>
    rw [List.mem_cons, not_or] at hlater
    have hop : op ≠ .reset := fun he => hlater.1 he.symm
    have hlast := ih (hw.perform op) hlater.2 (Nat.lt_of_lt_of_le hd (t.size_le_perform hop))
    exact hlast.trans (hw.encloses_perform hop hd)

end WellFormed

/-! ## The order of the calls -/

/-- That calls are made while those around them are under way: whatever is outstanding is the last
call or encloses it, and so is whoever made the next call. -/
structure CallOrdered (t : Tracker) : Prop where
  outstanding_within : ∀ p ∈ t.outstanding, ∀ last, t.nodes.size = last + 1 → t.Within p last
  caller_within : ∀ p i, t.Made p (i + 1) → t.Within p i

theorem callOrdered_empty : empty.CallOrdered := by
  constructor <;> simp [empty, Made]

namespace CallOrdered

variable {t : Tracker}

theorem enter (h : t.CallOrdered) (hw : t.WellFormed) (c : Call) : (t.enter c).1.CallOrdered where
  outstanding_within p hp last hlast := by
    rw [size_enter] at hlast
    have hnew : last = t.nodes.size := by omega
    have ho := t.outstanding_enter c
    rw [ho] at hp
    rw [hnew]
    rcases List.mem_cons.mp hp with rfl | hold
    · exact .refl
    · exact (((hw.enter c).encloses_top_iff ho).mpr hold).to_reflTransGen
  caller_within p i hmade := by
    have hkept : t.Within p i → (t.enter c).1.Within p i :=
      Relation.ReflTransGen.mono (fun _ _ hold => (made_enter hw c _ _).mpr (Or.inl hold)) p i
    refine hkept ?_
    rcases (made_enter hw c p (i + 1)).mp hmade with hold | ⟨hnew, hhead⟩
    · exact h.caller_within p i hold
    · exact h.outstanding_within p (List.mem_of_head? hhead) i hnew.symm

theorem leave (h : t.CallOrdered) (hw : t.WellFormed) (value : Option Json.Value) (step : Nat) :
    (t.leave value step).1.CallOrdered := by
  have hkept : ∀ p i, t.Within p i → (t.leave value step).1.Within p i :=
    Relation.ReflTransGen.mono fun p i => (made_leave_iff hw value step p i).mpr
  refine ⟨?_, ?_⟩
  · intro p hp last hlast
    rw [size_leave] at hlast
    refine hkept p last (h.outstanding_within p ?_ last hlast)
    cases ho : t.outstanding with
    | nil =>
      rw [leave_of_nil ho, ho] at hp
      exact hp
    | cons id callers =>
      rw [outstanding_leave ho] at hp
      exact List.mem_cons_of_mem id hp
  · intro p i hmade
    exact hkept p i (h.caller_within p i ((made_leave_iff hw value step p (i + 1)).mp hmade))

theorem perform (h : t.CallOrdered) (hw : t.WellFormed) (op : TrackerOperation) :
    (t.perform op).CallOrdered := by
  cases op with
  | enter c => exact h.enter hw c
  | leave value step => exact h.leave hw value step
  | reset => exact callOrdered_empty

theorem run (h : t.CallOrdered) (hw : t.WellFormed) (ops : List TrackerOperation) :
    (t.run ops).CallOrdered := by
  induction ops generalizing t with
  | nil => exact h
  | cons op ops ih => exact ih (h.perform hw op) (hw.perform op)

/-- What encloses a call encloses all calls made between the two. The induction is down from the later
call: whoever made it is the call before it, or encloses that one. -/
theorem within_of_le (h : t.CallOrdered) {a k : Nat} (hak : a ≤ k) :
    ∀ {j : Nat}, k ≤ j → t.Within a j → t.Within a k := by
  intro j hkj
  induction hkj with
  | refl => exact id
  | @step j hkj ih =>
    intro hj
    refine ih ?_
    rcases Relation.ReflTransGen.cases_tail hj with he | ⟨p, hp, hmade⟩
    · have hkj : k ≤ j := hkj
      omega
    · exact hp.trans (h.caller_within p j hmade)

end CallOrdered

end Tracker

end Retrace
