import Retrace.Proofs.CallTree.Enclosing
/-!
# What calls and returns leave alone

A call touches one node that is there already, the active one, which becomes its caller. A return
touches two: that of the call which returns, and that of its caller, which is active again. Both kinds
of node belong to outstanding calls. A call that has returned is not outstanding, nor is any that was
made during it, and neither ever will be again; so from its return on until the tracker is reset, its
node stands still and so does everything below it (`WellFormed.getElem?_run`, `encloses_run_returned`).
-/

namespace Retrace

namespace Tracker

variable {t : Tracker}

/-- A call makes the active call its caller, and leaves all others alone. -/
theorem WellFormed.getElem?_enter_active (hw : t.WellFormed) (c : Call) {i : Nat} {n : CallNode}
    (hn : t.nodes[i]? = some n) :
    (t.enter c).1.nodes[i]? = some (if n.isActive then
      { n with isActive := false, children := n.children.push t.nodes.size } else n) := by
  rw [getElem?_enter_old hw c hn]
  cases ha : n.isActive with
  | true =>
    rw [if_pos ((hw.active_iff i n hn).mp ha)]
    rfl
  | false =>
    have hhead : t.outstanding.head? ≠ some i := by
      intro hhead
      rw [(hw.active_iff i n hn).mpr hhead] at ha
      cases ha
    have hsame : ({ n with isActive := false } : CallNode) = n := by rw [← ha]
    rw [if_neg hhead]
    exact congrArg some hsame

section Leave

variable {id : Nat} {callers : List Nat}

/-- The caller of the innermost outstanding call is the next one on the stack. -/
theorem WellFormed.made_top_iff (hw : t.WellFormed) (ho : t.outstanding = id :: callers) (p : Nat) :
    t.Made p id ↔ callers.head? = some p := by
  obtain ⟨n, hn, -⟩ := (hw.mem_outstanding id).mp (by rw [ho]; exact List.mem_cons_self)
  have hparent : n.parent = callers.head? := by
    have hchain := (hw.chain 0 id n (by rw [ho]; rfl) hn).1
    rw [ho, Nat.zero_add, List.getElem?_cons_succ, ← List.head?_eq_getElem?] at hchain
    exact hchain
  constructor
  · intro hmade
    obtain ⟨m, hm, hp⟩ := hmade
    rw [hn] at hm
    injection hm with hm
    rw [← hparent, hm, hp]
  · intro hhead
    exact ⟨n, hn, hparent.trans hhead⟩

/-- A return leaves all calls alone but the one that returns and its caller. -/
theorem WellFormed.getElem?_leave_other (hw : t.WellFormed) (ho : t.outstanding = id :: callers)
    (value : Option Json.Value) (step : Nat) {i : Nat} (hi : i ≠ id) (hmade : ¬t.Made i id) :
    (t.leave value step).1.nodes[i]? = t.nodes[i]? := by
  have hnext : callers.head? ≠ some i := fun h => hmade ((hw.made_top_iff ho i).mpr h)
  rw [getElem?_leave hw ho, if_neg hi]
  cases hn : t.nodes[i]? with
  | none => rfl
  | some n =>
    have hidle : n.isActive = false := by
      refine hw.isActive_eq_false hn ?_
      rw [ho]
      intro hhead
      injection hhead with hhead
      exact hi hhead.symm
    simp [hnext, ← hidle]

end Leave

/-! ## Calls that have returned -/

/-- Nothing but a reset touches a call that has returned. -/
theorem WellFormed.getElem?_perform (hw : t.WellFormed) {op : TrackerOperation} (hop : op ≠ .reset)
    {i : Nat} {n : CallNode} (hn : t.nodes[i]? = some n) (hr : n.hasReturned = true) :
    (t.perform op).nodes[i]? = some n := by
  have hout := hw.not_outstanding hn hr
  cases op with
  | enter c =>
    have hidle : n.isActive = false :=
      hw.isActive_eq_false hn fun hhead => hout (List.mem_of_head? hhead)
    show (t.enter c).1.nodes[i]? = some n
    rw [hw.getElem?_enter_active c hn, hidle]
    rfl
  | leave value step =>
    show (t.leave value step).1.nodes[i]? = some n
    cases ho : t.outstanding with
    | nil => rw [leave_of_nil ho, hn]
    | cons id callers =>
      rw [ho, List.mem_cons, not_or] at hout
      rw [hw.getElem?_leave_other ho value step hout.1, hn]
      intro hmade
      exact hout.2 (List.mem_of_head? ((hw.made_top_iff ho i).mp hmade))
  | reset => exact absurd rfl hop

/-- Who made a call is who made it before, unless that one was outstanding. -/
theorem WellFormed.made_of_perform (hw : t.WellFormed) {op : TrackerOperation} (hop : op ≠ .reset)
    {p i : Nat} (hp : p ∉ t.outstanding) (h : (t.perform op).Made p i) : t.Made p i := by
  cases op with
  | enter c =>
    rcases (made_enter hw c p i).mp h with hold | ⟨-, hhead⟩
    · exact hold
    · exact absurd (List.mem_of_head? hhead) hp
  | leave value step => exact (made_leave_iff hw value step p i).mp h
  | reset => exact absurd rfl hop

/-- Whoever has returned makes no call any more, and neither do those whom it called. -/
theorem WellFormed.encloses_perform_returned (hw : t.WellFormed) {op : TrackerOperation}
    (hop : op ≠ .reset) {i : Nat} {n : CallNode} (hn : t.nodes[i]? = some n)
    (hr : n.hasReturned = true) (d : Nat) : (t.perform op).Encloses i d ↔ t.Encloses i d := by
  constructor
  · intro h
    -- down from the call that has returned; what it encloses was there and has returned as well
    induction h with
    | single hmade => exact .single (hw.made_of_perform hop (hw.not_outstanding hn hr) hmade)
    | @tail b d _ hmade ih =>
      obtain ⟨m, hm⟩ := Encloses.exists_node ih
      have hreturned := hw.hasReturned_of_transGen ih n m hn hm hr
      exact .tail ih (hw.made_of_perform hop (hw.not_outstanding hm hreturned) hmade)
  · intro h
    exact (hw.encloses_perform hop h.lt_size).mpr h

/-- A call that has returned stays as it is, and no call is made during it any more. The induction is
on what the tracker is told later. -/
theorem WellFormed.settled (hw : t.WellFormed) {later : List TrackerOperation}
    (hlater : .reset ∉ later) {i : Nat} {n : CallNode} (hn : t.nodes[i]? = some n)
    (hr : n.hasReturned = true) :
    (t.run later).nodes[i]? = some n ∧ ∀ d, (t.run later).Encloses i d ↔ t.Encloses i d := by
  induction later generalizing t with
  | nil => exact ⟨hn, fun d => Iff.rfl⟩
  | cons op later ih =>
    rw [List.mem_cons, not_or] at hlater
    have hop : op ≠ .reset := fun he => hlater.1 he.symm
    obtain ⟨hnode, hencloses⟩ := ih (hw.perform op) hlater.2 (hw.getElem?_perform hop hn hr)
    exact ⟨hnode, fun d => (hencloses d).trans (hw.encloses_perform_returned hop hn hr d)⟩

/-- **Calls and returns touch only what they may**, whatever the tracker was told before. A call is added
at the end, and of the others only the active one changes: it is active no more, and the new call is its
last child. A return changes the innermost outstanding call, which is given its value and its end and
is active no more, and its caller, which is active again. With no call outstanding a return changes
nothing and gives no number. And a call that has returned does not change any more until a reset, nor
does any call that was made during it, nor which these are. -/
theorem moves_touch_only (ops : List TrackerOperation) :
    let t := empty.run ops
    (∀ c : Call,
      let t' := (t.enter c).1
      (t.enter c).2 = t.nodes.size ∧ t'.nodes.size = t.nodes.size + 1
      ∧ t'.outstanding = t.nodes.size :: t.outstanding
      ∧ t'.roots = (if t.outstanding = [] then t.roots.push t.nodes.size else t.roots)
      ∧ ∀ (i : Nat) (n : CallNode), t.nodes[i]? = some n →
        t'.nodes[i]? = some (if n.isActive then
          { n with isActive := false, children := n.children.push t.nodes.size } else n))
    ∧ (∀ (value : Option Json.Value) (step id : Nat) (callers : List Nat),
        t.outstanding = id :: callers →
      let t' := (t.leave value step).1
      (t.leave value step).2 = some id ∧ t'.nodes.size = t.nodes.size
      ∧ t'.outstanding = callers ∧ t'.roots = t.roots
      ∧ (∀ n : CallNode, t.nodes[id]? = some n → t'.nodes[id]? = some { n with
          returnValue := value
          returnText := some (valueText .forCallTree value)
          endStep := some step
          hasReturned := true
          isActive := false })
      ∧ (∀ (p : Nat) (n : CallNode), t.Made p id → t.nodes[p]? = some n →
          t'.nodes[p]? = some { n with isActive := true })
      ∧ ∀ i, i ≠ id → ¬t.Made i id → t'.nodes[i]? = t.nodes[i]?)
    ∧ (∀ (value : Option Json.Value) (step : Nat), t.outstanding = [] →
        t.leave value step = (t, none))
    ∧ (∀ later : List TrackerOperation, .reset ∉ later →
      let t' := t.run later
      ∀ (i : Nat) (n : CallNode), t.nodes[i]? = some n → n.hasReturned = true →
        t'.nodes[i]? = some n
        ∧ (∀ d, t'.Encloses i d ↔ t.Encloses i d)
        ∧ ∀ d, t.Encloses i d → t'.nodes[d]? = t.nodes[d]?) := by
  intro t
  have hw : t.WellFormed := wellFormed_empty.run ops
  refine ⟨?_, ?_, ?_, ?_⟩
  · intro c
    exact ⟨t.enter_snd c, t.size_enter c, t.outstanding_enter c, t.roots_enter c,
      fun i n hn => hw.getElem?_enter_active c hn⟩
  · intro value step id callers ho
    refine ⟨leave_snd ho value step, t.size_leave value step, outstanding_leave ho value step,
      roots_leave ho value step, ?_, ?_, ?_⟩
    · intro n hn
      rw [getElem?_leave hw ho, if_pos rfl, hn]
      rfl
    · intro p n hmade hn
      have hne : p ≠ id := Nat.ne_of_lt (hw.lt_of_made hmade)
      rw [getElem?_leave hw ho, if_neg hne, hn, (hw.made_top_iff ho p).mp hmade]
      simp
    · intro i hi hmade
      exact hw.getElem?_leave_other ho value step hi hmade
  · intro value step ho
    exact leave_of_nil ho value step
  · intro later hlater t' i n hn hr
    obtain ⟨hnode, hencloses⟩ := hw.settled hlater hn hr
    refine ⟨hnode, hencloses, ?_⟩
    intro d hd
    obtain ⟨m, hm⟩ := hd.exists_node
    rw [hm]
    exact (hw.settled hlater hm (hw.hasReturned_of_transGen hd n m hn hm hr)).1

/-- While `f` calls `h`, the call of `g` that was over before stays as it is, and so does the call of `k`
made during it; they still do when all have returned, one return too many was seen, and another call
was made. With no call outstanding that return does nothing. -/
theorem inner_calls_settled :
    let ops := [.enter (.plain "f" 1), .enter (.plain "g" 2), .enter (.plain "k" 3), .leave none 4,
      .leave none 5, .enter (.plain "h" 6)]
    let later := [.leave none 7, .leave none 8, .leave none 9, .enter (.plain "f" 10)]
    let t := empty.run ops
    (t.outstanding = [3, 0] ∧ t.Made 0 3 ∧ ¬t.Made 1 3 ∧ t.Encloses 1 2 ∧ .reset ∉ later
      ∧ t.nodes[1]?.map (·.hasReturned) = some true)
    ∧ (t.leave none 7).1.nodes[0]?.map (·.isActive) = some true
    ∧ (t.leave none 7).1.nodes[1]? = t.nodes[1]?
    ∧ (t.run later).nodes[1]? = t.nodes[1]?
    ∧ (t.run later).nodes[2]? = t.nodes[2]?
    ∧ empty.leave none 9 = (empty, none) := by
  intro ops later t
  have ho : t.outstanding = [3, 0] := by decide +kernel
  have hreturned : t.nodes[1]?.map (·.hasReturned) = some true := by decide +kernel
  have hmade : t.Made 0 3 := by decide +kernel
  have hnot : ¬t.Made 1 3 := by decide +kernel
  have hencloses : t.Encloses 1 2 := .single (by decide +kernel)
  obtain ⟨n, hn, hr⟩ := Option.map_eq_some_iff.mp hreturned
  obtain ⟨caller, hcaller⟩ : ∃ m, t.nodes[0]? = some m :=
    ⟨_, Array.getElem?_eq_getElem (Nat.lt_trans (by decide : 0 < 3) hmade.lt_size)⟩
  have hlater : .reset ∉ later := by simp [later]
  obtain ⟨-, hleave, -, hsettled⟩ := moves_touch_only ops
  obtain ⟨-, -, -, -, -, hresumed, hothers⟩ := hleave none 7 3 [0] ho
  obtain ⟨hnode, -, hbelow⟩ := hsettled later hlater 1 n hn hr
  obtain ⟨-, -, hspurious, -⟩ := moves_touch_only []
  refine ⟨⟨ho, hmade, hnot, hencloses, hlater, hreturned⟩, ?_, hothers 1 (by decide) hnot, ?_,
    hbelow 2 hencloses, hspurious none 9 rfl⟩
  · rw [hresumed 0 caller hmade hcaller]
    rfl
  · rw [hn]
    exact hnode

end Tracker

end Retrace
