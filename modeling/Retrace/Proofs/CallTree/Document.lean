import Retrace.CallTree.Document
import Retrace.CallTree.Render
import Retrace.Proofs.CallTree.Preorder
import Retrace.Proofs.Json.Assembly
import Retrace.Proofs.Json.Decoding
/-!
# Call-tree documents survive being read

A call is written as an object that holds the list of the calls below it, so each level of a forest nests
the document by two, and the forest itself is a list (`nesting_forestTree`). The reader may enter 127
arrays and objects, which are 63 levels. A forest of no more levels reads back as it was, whatever is
left out in it (`decode?_forestTree`); of a deeper one nothing is read (`decode?_of_deep`).

What a tracker numbers is bounded by the number of its calls, and it invents no steps. So the forest of a
tracker can be written and read as soon as the calls and the steps fit 64 bits (`Tracker.fits_of_mem`).
-/

namespace Retrace

open Json (Tree Decoder Record)

namespace CallSummary

/-- Whether the numbers of a call fit 64 bits. -/
structure Fits (c : CallSummary) : Prop where
  id : c.id < 2 ^ 64
  depth : c.depth < 2 ^ 64
  startStep : c.startStep < 2 ^ 64
  endStep : ∀ n ∈ c.endStep, n < 2 ^ 64

instance (c : CallSummary) : Decidable c.Fits :=
  decidable_of_iff
    (c.id < 2 ^ 64 ∧ c.depth < 2 ^ 64 ∧ c.startStep < 2 ^ 64 ∧ ∀ n ∈ c.endStep, n < 2 ^ 64)
    ⟨fun h => ⟨h.1, h.2.1, h.2.2.1, h.2.2.2⟩, fun h => ⟨h.id, h.depth, h.startStep, h.endStep⟩⟩

/-- The members of the object that a call is written as, with what is written of the calls below it. -/
def document (c : CallSummary) (below : Tree) : List (String × Tree) :=
  c.members ++ [("children", below)]

variable (c : CallSummary) (below : Tree)

theorem nodup_document : ((c.document below).map Prod.fst).Nodup := by
  unfold document members
  cases c.returnValue <;> cases c.endStep <;> simp

theorem mem_fieldNames : ∀ m ∈ c.document below, m.1 ∈ CallTree.fieldNames := by
  unfold document members CallTree.fieldNames
  cases c.returnValue <;> cases c.endStep <;> simp

theorem nesting_document : (Tree.record (c.document below)).nesting = below.nesting + 1 := by
  unfold document members
  cases c.returnValue <;> cases c.endStep <;>
    simp [Tree.record, Tree.nesting, Tree.memberNesting, Tree.nat]

/-- Each part of a call stands under its name, and what is left out stands nowhere. -/
theorem lookup_document :
    (c.document below).lookup "id" = some (.nat c.id)
    ∧ (c.document below).lookup "name" = some (.text c.name)
    ∧ (c.document below).lookup "arguments" = some (.text c.arguments)
    ∧ (c.document below).lookup "return_value" = c.returnValue.map Tree.text
    ∧ (c.document below).lookup "has_returned" = some (.bool c.hasReturned)
    ∧ (c.document below).lookup "is_active" = some (.bool c.isActive)
    ∧ (c.document below).lookup "depth" = some (.nat c.depth)
    ∧ (c.document below).lookup "start_step" = some (.nat c.startStep)
    ∧ (c.document below).lookup "end_step" = c.endStep.map Tree.nat
    ∧ (c.document below).lookup "children" = some below := by
  unfold document members
  cases c.returnValue <;> cases c.endStep <;> exact ⟨rfl, rfl, rfl, rfl, rfl, rfl, rfl, rfl, rfl, rfl⟩

end CallSummary

namespace CallTree

mutual

/-- The number of levels of a tree. -/
def height : CallTree → Nat
  | node _ ts => heightAll ts + 1

/-- The number of levels of a forest. -/
def heightAll : List CallTree → Nat
  | [] => 0
  | t :: ts => max t.height (heightAll ts)

end

theorem trees_eq_map (ts : List CallTree) : trees ts = ts.map tree := by
  induction ts with
  | nil => rfl
  | cons t ts ih => rw [trees, ih, List.map_cons]

/-! ## How deep a document nests -/

mutual

theorem nesting_tree : ∀ t : CallTree, t.tree.nesting = 2 * t.height
  | node c ts => by
    have hbelow := itemNesting_trees ts
    have hdocument := c.nesting_document (.array (trees ts))
    rw [Tree.nesting] at hdocument
    rw [height]
    refine hdocument.trans ?_
    omega

theorem itemNesting_trees : ∀ ts : List CallTree,
    Tree.itemNesting (trees ts) = 2 * heightAll ts
  | [] => rfl
  | t :: ts => by
    have hfirst := nesting_tree t
    have hrest := itemNesting_trees ts
    rw [trees, Tree.itemNesting, heightAll]
    omega

end

theorem nesting_forestTree (ts : List CallTree) :
    (forestTree ts).nesting = 2 * heightAll ts + 1 := by
  rw [forestTree, Tree.nesting, itemNesting_trees]

/-! ## Reading what is written -/

mutual

/-- A call tree reads back, if the reader is given enough levels. The induction is on the tree. -/
theorem decoderTo_reads : ∀ (t : CallTree) (levels : Nat), t.height ≤ levels →
    (∀ view ∈ t.preorder, view.call.Fits) → (decoderTo levels).Reads t.tree t
  | node c ts, 0, hlevels, hfits => by
    rw [height] at hlevels
    exact absurd hlevels (Nat.not_succ_le_zero _)
  | node c ts, levels + 1, hlevels, hfits => by
    intro depth hn
    rw [height, Nat.add_le_add_iff_right] at hlevels
    rw [preorder, List.forall_mem_cons] at hfits
    obtain ⟨hcall, hbelow⟩ := hfits
    obtain ⟨rest, hr, hfit⟩ := Tree.record?_record fieldNames
      (c.nodup_document (.array (trees ts))) (c.mem_fieldNames _) hn
    obtain ⟨hid, hname, harguments, hvalue, hreturned, hactive, hdepth, hstart, hend, hchildren⟩ :=
      c.lookup_document (.array (trees ts))
    have hchildrenRead : (Decoder.list (decoderTo levels)).Reads (.array (trees ts)) ts := by
      rw [trees_eq_map]
      exact Decoder.reads_list (decoderTo_reads_of_mem ts levels hlevels hbelow)
    have hid := hfit.required "id" hid (Decoder.reads_nat hcall.id)
    have hname := hfit.required "name" hname (Decoder.reads_text c.name)
    have harguments := hfit.required "arguments" harguments (Decoder.reads_text c.arguments)
    have hvalue := hfit.omissible rfl "return_value" hvalue Tree.text_ne_null fun s _ =>
      Decoder.reads_text s
    have hreturned := hfit.required "has_returned" hreturned (Decoder.reads_bool c.hasReturned)
    have hactive := hfit.required "is_active" hactive (Decoder.reads_bool c.isActive)
    have hdepth := hfit.required "depth" hdepth (Decoder.reads_nat hcall.depth)
    have hstart := hfit.required "start_step" hstart (Decoder.reads_nat hcall.startStep)
    have hend := hfit.omissible rfl "end_step" hend Tree.nat_ne_null fun n hn =>
      Decoder.reads_nat (hcall.endStep n hn)
    have hchildren := hfit.required "children" hchildren hchildrenRead
    show decoderTo (levels + 1) depth (Tree.record (c.document (.array (trees ts)))) = _
    simp only [decoderTo, hr, hid, hname, harguments, hvalue, hreturned, hactive, hdepth, hstart, hend,
      hchildren, Option.bind_eq_bind, Option.bind_some]

theorem decoderTo_reads_of_mem : ∀ (ts : List CallTree) (levels : Nat), heightAll ts ≤ levels →
    (∀ view ∈ preorderAll ts, view.call.Fits) → ∀ t ∈ ts, (decoderTo levels).Reads t.tree t
  | [], levels, hlevels, hfits => nofun
  | t :: ts, levels, hlevels, hfits => by
    rw [heightAll, Nat.max_le] at hlevels
    rw [preorderAll, List.forall_mem_append] at hfits
    rw [List.forall_mem_cons]
    exact ⟨decoderTo_reads t levels hlevels.1 hfits.1,
      decoderTo_reads_of_mem ts levels hlevels.2 hfits.2⟩

end

mutual

/-- A call tree that is deeper than the reader may enter is not read, however many levels it is given. -/
theorem decoderTo_of_lt : ∀ (t : CallTree) (levels depth : Nat), depth < 2 * t.height →
    decoderTo levels depth t.tree = none
  | node c ts, 0, depth, hdepth => rfl
  | node c ts, levels + 1, 0, hdepth => rfl
  | node c ts, levels + 1, depth + 1, hdepth => by
    rw [height] at hdepth
    have hr := Tree.record?_written (c.nodup_document (.array (trees ts))) (c.mem_fieldNames _) depth
    obtain ⟨-, -, -, -, -, -, -, -, -, hchildren⟩ := c.lookup_document (.array (trees ts))
    have hbelow : Record.required ⟨true, c.document (.array (trees ts)), depth⟩ "children"
        (.list (decoderTo levels)) = none := by
      rw [Record.required, hchildren]
      exact list_decoderTo_of_lt ts levels depth (by omega)
    show decoderTo (levels + 1) (depth + 1) (Tree.record (c.document (.array (trees ts)))) = _
    simp only [decoderTo, hr, hbelow, Option.bind_eq_bind, Option.bind_some, Option.bind_none,
      Option.bind_fun_none]

theorem list_decoderTo_of_lt : ∀ (ts : List CallTree) (levels depth : Nat),
    depth < 2 * heightAll ts + 1 →
    Decoder.list (decoderTo levels) depth (.array (trees ts)) = none
  | ts, levels, 0, hdepth => rfl
  | [], levels, depth + 1, hdepth => by
    rw [heightAll] at hdepth
    omega
  | t :: ts, levels, depth + 1, hdepth => by
    rw [heightAll] at hdepth
    show (t.tree :: trees ts).mapM (decoderTo levels depth) = none
    rw [List.mapM_cons]
    by_cases hfirst : depth < 2 * t.height
    · rw [decoderTo_of_lt t levels depth hfirst]
      rfl
    · have hrest : (trees ts).mapM (decoderTo levels depth) = none :=
        list_decoderTo_of_lt ts levels (depth + 1) (by omega)
      rw [hrest]
      cases decoderTo levels depth t.tree <;> rfl

end

/-! ## Forests as text -/

variable {ts : List CallTree} {text : String}

/-- A forest of up to 63 levels is what any text of its document denotes. -/
theorem decode?_forestTree (hheight : heightAll ts ≤ 63)
    (hfits : ∀ view ∈ preorderAll ts, view.call.Fits) (htext : Tree.parse? text = some (forestTree ts)) :
    Json.decode? (.list decoder) text = some ts := by
  have hnesting : (forestTree ts).nesting ≤ 127 := by
    rw [nesting_forestTree]
    omega
  have hreads : (Decoder.list (decoderTo 126)).Reads (forestTree ts) ts := by
    rw [forestTree, trees_eq_map]
    exact Decoder.reads_list (decoderTo_reads_of_mem ts 126 (by omega) hfits)
  rw [Json.decode?, htext, Option.bind_some]
  exact hreads 127 hnesting

/-- And a deeper one is not read at all. -/
theorem decode?_of_deep (hheight : 63 < heightAll ts) (htext : Tree.parse? text = some (forestTree ts)) :
    Json.decode? (.list decoder) text = none := by
  rw [Json.decode?, htext, Option.bind_some, forestTree]
  show Decoder.list (decoderTo 126) 127 (.array (trees ts)) = none
  exact list_decoderTo_of_lt ts 126 127 (by omega)

end CallTree

/-! ## The forest of a tracker -/

/-- The step at which something is told to a tracker. -/
def TrackerOperation.step? : TrackerOperation → Option Nat
  | enter c => some c.step
  | leave _ step => some step
  | reset => none

namespace Tracker

open CallTree (preorderAll)

variable {t : Tracker}

/-- A call is no deeper than its number says, since each call around it was made before. -/
theorem WellFormed.depth_le (hw : t.WellFormed) :
    ∀ (i : Nat) {n : CallNode}, t.nodes[i]? = some n → n.depth ≤ i := by
  intro i
  induction i using Nat.strongRecOn with
  | ind i ih =>
    intro n hn
    cases hp : n.parent with
    | none =>
      rw [hw.depth_root i n hn hp]
      exact Nat.zero_le i
    | some p =>
      have hlt := hw.parent_lt i p n hn hp
      have hi : i < t.nodes.size := (Array.getElem?_eq_some_iff.mp hn).choose
      obtain ⟨m, hm⟩ : ∃ m, t.nodes[p]? = some m :=
        ⟨_, Array.getElem?_eq_getElem (Nat.lt_trans hlt hi)⟩
      have hcaller := ih p hlt hm
      rw [hw.depth_child i p n m hn hp hm]
      omega

/-- Whether all steps that a tracker has recorded are as `P` says. -/
def StepsAre (P : Nat → Prop) (t : Tracker) : Prop :=
  ∀ (i : Nat) (n : CallNode), t.nodes[i]? = some n → P n.startStep ∧ ∀ e ∈ n.endStep, P e

theorem stepsAre_empty (P : Nat → Prop) : empty.StepsAre P := by
  intro i n hn
  cases hn

/-- A tracker records the steps that it is told. -/
theorem StepsAre.perform {P : Nat → Prop} (h : t.StepsAre P) (hw : t.WellFormed)
    {op : TrackerOperation} (hop : ∀ s ∈ op.step?, P s) : (t.perform op).StepsAre P := by
  intro i n hn
  cases op with
  | enter c =>
    rcases enter_cases hw hn with ⟨-, rfl⟩ | ⟨m, hm, rfl⟩
    · exact ⟨hop c.step rfl, nofun⟩
    · exact h i m hm
  | leave value step =>
    have hn : (t.leave value step).1.nodes[i]? = some n := hn
    cases ho : t.outstanding with
    | nil =>
      rw [leave_of_nil ho] at hn
      exact h i n hn
    | cons id callers =>
      obtain ⟨m, hm, ⟨-, rfl⟩ | ⟨-, rfl⟩⟩ := leave_cases hw ho hn
      · refine ⟨(h i m hm).1, ?_⟩
        intro e he
        obtain rfl := Option.some.inj he
        exact hop step rfl
      · exact h i m hm
  | reset => cases hn

theorem StepsAre.run {P : Nat → Prop} (h : t.StepsAre P) (hw : t.WellFormed)
    {ops : List TrackerOperation} (hops : ∀ op ∈ ops, ∀ s ∈ op.step?, P s) :
    (t.run ops).StepsAre P := by
  induction ops generalizing t with
  | nil => exact h
  | cons op ops ih =>
    rw [List.forall_mem_cons] at hops
    exact ih (h.perform hw hops.1) (hw.perform op) hops.2

/-- What the forest shows fits 64 bits, if the steps and the number of calls do. -/
theorem fits_of_mem {ops : List TrackerOperation} (hsteps : ∀ op ∈ ops, ∀ s ∈ op.step?, s < 2 ^ 64)
    (hcalls : (empty.run ops).totalCalls ≤ 2 ^ 64) :
    ∀ view ∈ preorderAll (empty.run ops).forest, view.call.Fits := by
  intro view hview
  have hw : (empty.run ops).WellFormed := wellFormed_empty.run ops
  have ho : (empty.run ops).CallOrdered := callOrdered_empty.run wellFormed_empty ops
  have hrecorded : (empty.run ops).StepsAre (· < 2 ^ 64) :=
    (stepsAre_empty _).run wellFormed_empty hsteps
  have hcall : view.call ∈ (empty.run ops).nodes.toList.map CallNode.summary := by
    rw [← calls_forest hw ho]
    exact List.mem_map_of_mem hview
  obtain ⟨n, hn, hsummary⟩ := List.mem_map.mp hcall
  obtain ⟨i, hi⟩ := List.mem_iff_getElem?.mp hn
  rw [Array.getElem?_toList] at hi
  have hlt : i < 2 ^ 64 := Nat.lt_of_lt_of_le (Array.getElem?_eq_some_iff.mp hi).choose hcalls
  have hid : n.id < 2 ^ 64 := by
    rw [hw.id_eq i n hi]
    exact hlt
  have hdepth : n.depth < 2 ^ 64 := Nat.lt_of_le_of_lt (hw.depth_le i hi) hlt
  obtain ⟨hstart, hend⟩ := hrecorded i n hi
  rw [← hsummary]
  exact ⟨hid, hdepth, hstart, hend⟩

end Tracker

namespace CallTree

/-- **Call-tree documents survive a round trip.** A forest of up to 63 levels is denoted by either text of
its document, all of it: what was unset is left out of the document and unset again. A deeper forest
is denoted by neither, for the reader enters no more arrays and objects. So what is printed of the forest
of a tracker, the labels and the sizes of its trees are the same after it was written and read, whatever
the tracker was told. -/
theorem document_reads_back :
    (∀ ts : List CallTree, heightAll ts ≤ 63 → (∀ view ∈ preorderAll ts, view.call.Fits) →
      Json.decode? (.list decoder) (forestTree ts).compact = some ts
      ∧ Json.decode? (.list decoder) (forestTree ts).pretty = some ts)
    ∧ (∀ ts : List CallTree, 63 < heightAll ts →
      Json.decode? (.list decoder) (forestTree ts).compact = none
      ∧ Json.decode? (.list decoder) (forestTree ts).pretty = none)
    ∧ ∀ ops : List TrackerOperation, (∀ op ∈ ops, ∀ s ∈ op.step?, s < 2 ^ 64) →
      (Tracker.empty.run ops).totalCalls ≤ 2 ^ 64 →
      heightAll (Tracker.empty.run ops).forest ≤ 63 →
      let forest := (Tracker.empty.run ops).forest
      ∃ read, Json.decode? (.list decoder) (forestTree forest).compact = some read
        ∧ Json.decode? (.list decoder) (forestTree forest).pretty = some read
        ∧ render read = render forest
        ∧ (preorderAll read).map label = (preorderAll forest).map label
        ∧ (preorderAll read).map size = (preorderAll forest).map size := by
  refine ⟨fun ts hheight hfits => ?_, fun ts hheight => ?_, fun ops hsteps hcalls hheight => ?_⟩
  · exact ⟨decode?_forestTree hheight hfits (Tree.parse?_compact _),
      decode?_forestTree hheight hfits (Tree.parse?_pretty _)⟩
  · exact ⟨decode?_of_deep hheight (Tree.parse?_compact _),
      decode?_of_deep hheight (Tree.parse?_pretty _)⟩
  · intro forest
    have hfits := Tracker.fits_of_mem hsteps hcalls
    exact ⟨forest, decode?_forestTree hheight hfits (Tree.parse?_compact _),
      decode?_forestTree hheight hfits (Tree.parse?_pretty _), rfl, rfl, rfl⟩

/-- Calls one below the other. -/
def chain : (levels : Nat) → List CallTree
  | 0 => []
  | levels + 1 => [.node ⟨levels, "down", "", none, false, false, levels, levels, none⟩ (chain levels)]

/-- A chain of 63 calls reads back and one of 64 does not; a forest with a call that has returned and one
that has not reads back as it is printed. -/
theorem chain_reads_back :
    let ops := [.enter (.plain "f" 1), .enter (.plain "g" 2), .leave none 3, .enter (.plain "h" 4)]
    let forest := (Tracker.empty.run ops).forest
    (heightAll (chain 63) ≤ 63 ∧ (∀ view ∈ preorderAll (chain 63), view.call.Fits)
      ∧ Json.decode? (.list decoder) (forestTree (chain 63)).compact = some (chain 63))
    ∧ (63 < heightAll (chain 64)
      ∧ Json.decode? (.list decoder) (forestTree (chain 64)).compact = none)
    ∧ ((∀ op ∈ ops, ∀ s ∈ op.step?, s < 2 ^ 64) ∧ (Tracker.empty.run ops).totalCalls ≤ 2 ^ 64
      ∧ heightAll forest ≤ 63)
    ∧ ∃ read, Json.decode? (.list decoder) (forestTree forest).compact = some read
      ∧ (preorderAll read).map label = ["f()", "g() => undefined", "h()"]
      ∧ (preorderAll read).map size = [3, 1, 1] := by
  intro ops forest
  obtain ⟨hreads, hdeep, htracker⟩ := document_reads_back
  have hheight : heightAll (chain 63) ≤ 63 := by decide +kernel
  have hfits : ∀ view ∈ preorderAll (chain 63), view.call.Fits := by decide +kernel
  have hhigh : 63 < heightAll (chain 64) := by decide +kernel
  have hsteps : ∀ op ∈ ops, ∀ s ∈ op.step?, s < 2 ^ 64 := by decide
  have hcalls : (Tracker.empty.run ops).totalCalls ≤ 2 ^ 64 := by decide +kernel
  have hlow : heightAll forest ≤ 63 := by decide +kernel
  obtain ⟨read, hcompact, -, -, hlabels, hsizes⟩ := htracker ops hsteps hcalls hlow
  refine ⟨⟨hheight, hfits, (hreads _ hheight hfits).1⟩, ⟨hhigh, (hdeep _ hhigh).1⟩,
    ⟨hsteps, hcalls, hlow⟩, read, hcompact, hlabels.trans ?_, hsizes.trans ?_⟩
  · decide +kernel
  · rw [List.map_congr_left fun t _ => t.size_eq_count]
    decide +kernel

end CallTree

end Retrace
