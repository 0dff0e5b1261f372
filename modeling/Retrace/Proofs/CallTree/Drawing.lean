import Retrace.CallTree.Render
import Retrace.Proofs.CallTree.Preorder
/-!
# What is printed of a forest

The printer works on a stack of the trees still to be printed, each with the columns of its first line.
What it prints of them are their outlines, one after the other (`renderFrom_eq`); the statement is about
the whole stack, since printing a tree puts the trees below it on top of what was pending.

An outline is made of rows, one for each call (`rows`). A row knows of each call around its own whether it
has later siblings, and that decides the columns at its front: a bar if so and a blank otherwise, none
for a root. The calls of the rows are those of the tree in preorder (`map_call_rows`).
-/

namespace Retrace

/-- The text of a call in a printed forest: its label, and the mark of the innermost outstanding call. -/
def CallSummary.caption (c : CallSummary) : String := c.label ++ if c.isActive then " <" else ""

namespace CallTree

/-- A row of a printed forest: a call, and where it stands. -/
structure Row where
  /-- Of each call around it that is no root, the outermost one first: whether it has later siblings. -/
  around : List Bool
  /-- Whether the call has later siblings itself; none for a root. -/
  later : Option Bool
  call : CallSummary

namespace Row

/-- The columns for the calls around a call. -/
def columns (around : List Bool) : String :=
  String.join (around.map fun later => if later then "│   " else "    ")

/-- What leads from the columns to the call: nothing to a root, a branch to a call with later siblings,
and a corner to the last one. -/
def connector : Option Bool → String
  | none => ""
  | some true => "├── "
  | some false => "└── "

/-- A row as text. -/
def text (r : Row) : String := columns r.around ++ connector r.later ++ r.call.caption ++ "\n"

end Row

mutual

/-- The rows of a tree, the calls around it given. -/
def rows (around : List Bool) (later : Option Bool) : CallTree → List Row
  | node c ts => ⟨around, later, c⟩ :: rowsBelow (around ++ later.toList) ts

/-- The rows of siblings: all but the last one have later siblings. -/
def rowsBelow (around : List Bool) : List CallTree → List Row
  | [] => []
  | t :: ts => rows around (some !ts.isEmpty) t ++ rowsBelow around ts

end

/-- The rows of a forest. -/
def forestRows (roots : List CallTree) : List Row := roots.flatMap (rows [] none)

/-! ## The stack of pending trees -/

namespace Pending

/-- The outline of a pending tree. -/
def outline (p : Pending) : String := p.tree.outline p.columns p.place

theorem outline_ofSiblings (columns : String) (ts : List CallTree) :
    String.join ((ofSiblings columns ts).map outline) = outlineSiblings columns ts := by
  induction ts using ofSiblings.induct with
  | case1 => rfl
  | case2 t =>
    rw [ofSiblings, List.map_singleton, String.join_cons, outlineSiblings, outlineSiblings]
    rfl
  | case3 t u ts ih =>
    rw [ofSiblings, List.map_cons, String.join_cons, ih, outlineSiblings]
    rfl

/-- The outline of a tree is its first line and the outlines of the trees below it. -/
theorem outline_eq (p : Pending) :
    p.outline = line p.columns p.place p.tree.call ++ String.join (p.below.map outline) := by
  obtain ⟨⟨c, ts⟩, columns, place⟩ := p
  rw [below, outline_ofSiblings, outline, CallTree.outline]
  rfl

end Pending

/-- What is printed of the pending trees are their outlines. -/
theorem renderFrom_eq (done : String) (pending : List Pending) :
    renderFrom done pending = done ++ String.join (pending.map Pending.outline) := by
  fun_induction renderFrom done pending with
  | case1 done => rw [List.map_nil, String.join_nil, String.append_empty]
  | case2 done p rest ih =>
    calc renderFrom (done ++ line p.columns p.place p.tree.call) (p.below ++ rest)
      _ = done ++ line p.columns p.place p.tree.call
            ++ String.join ((p.below ++ rest).map Pending.outline) := ih
      _ = done ++ (p.outline ++ String.join (rest.map Pending.outline)) := by
        rw [List.map_append, String.join_append, p.outline_eq]
        simp only [String.append_assoc]
      _ = done ++ String.join ((p :: rest).map Pending.outline) := by
        rw [List.map_cons, String.join_cons]

theorem render_eq_join (roots : List CallTree) :
    render roots = String.join (roots.map (outline "" .root)) := by
  rw [render, renderFrom_eq, String.empty_append, List.map_map]
  rfl

/-! ## Rows -/

/-- The place of a call that is no root, or of a root. -/
def Place.of : Option Bool → Place
  | none => .root
  | some true => .inner
  | some false => .last

theorem Row.columns_append (around : List Bool) (later : Option Bool) :
    columns (around ++ later.toList) = columns around ++ (Place.of later).column := by
  unfold columns
  rw [List.map_append, String.join_append]
  rcases later with - | - | - <;> rfl

theorem Row.text_eq_line (around : List Bool) (later : Option Bool) (c : CallSummary) :
    text ⟨around, later, c⟩ = line (columns around) (Place.of later) c := by
  have hconnector : connector later = (Place.of later).connector := by
    rcases later with - | - | - <;> rfl
  show columns around ++ connector later ++ (c.label ++ _) ++ "\n" = _
  rw [hconnector, line]
  simp only [String.append_assoc]

mutual

theorem outline_eq_rows : ∀ (t : CallTree) (around : List Bool) (later : Option Bool),
    outline (Row.columns around) (Place.of later) t
      = String.join ((rows around later t).map Row.text)
  | node c ts, around, later => by
    rw [outline, rows, List.map_cons, String.join_cons, Row.text_eq_line, ← Row.columns_append,
      outlineSiblings_eq_rows ts]

theorem outlineSiblings_eq_rows : ∀ (ts : List CallTree) (around : List Bool),
    outlineSiblings (Row.columns around) ts = String.join ((rowsBelow around ts).map Row.text)
  | [], around => rfl
  | t :: ts, around => by
    have hplace : (if ts.isEmpty then Place.last else .inner) = .of (some !ts.isEmpty) := by
      cases ts <;> rfl
    rw [outlineSiblings, rowsBelow, List.map_append, String.join_append, hplace,
      outline_eq_rows t, outlineSiblings_eq_rows ts]

end

/-- What is printed of a forest are its rows. -/
theorem render_eq_rows (roots : List CallTree) :
    render roots = String.join ((forestRows roots).map Row.text) := by
  rw [render_eq_join, forestRows, List.map_flatMap]
  induction roots with
  | nil => rfl
  | cons t roots ih =>
    have hfirst := outline_eq_rows t [] none
    rw [List.map_cons, String.join_cons, List.flatMap_cons, String.join_append, ← ih, ← hfirst]
    rfl

mutual

theorem map_call_rows : ∀ (t : CallTree) (around : List Bool) (later : Option Bool),
    (rows around later t).map Row.call = t.preorder.map call
  | node c ts, around, later => by
    rw [rows, preorder, List.map_cons, List.map_cons, map_call_rowsBelow ts]
    rfl

theorem map_call_rowsBelow : ∀ (ts : List CallTree) (around : List Bool),
    (rowsBelow around ts).map Row.call = (preorderAll ts).map call
  | [], around => rfl
  | t :: ts, around => by
    rw [rowsBelow, preorderAll, List.map_append, List.map_append, map_call_rows t,
      map_call_rowsBelow ts]

end

/-- **The printer prints outlines.** Whatever the forest, what the stack of pending trees brings out is
the outline of each root by recursion, in their order. An outline has one row for each call of its tree,
in preorder. At the front of a row stands a column for each call around it that is no root, with a bar if
that call has later siblings and blank if it has none; then comes a branch or, for the last of some
siblings, a corner, and nothing for a root; then the label, and the mark if the call is the innermost
outstanding one. -/
theorem render_eq_outlines (roots : List CallTree) :
    render roots = String.join (roots.map (outline "" .root))
    ∧ (∀ t, outline "" .root t = String.join ((rows [] none t).map Row.text))
    ∧ (∀ t, (rows [] none t).map Row.call = t.preorder.map call
        ∧ (rows [] none t).length = t.size) := by
  refine ⟨render_eq_join roots, fun t => outline_eq_rows t [] none, fun t => ?_⟩
  have hcalls := map_call_rows t [] none
  have hlength := congrArg List.length hcalls
  rw [List.length_map, List.length_map, length_preorder, ← size_eq_count] at hlength
  exact ⟨hcalls, hlength⟩

end CallTree

end Retrace
