import Retrace.CallTree.Basic
/-!
# Printed call trees

A forest is printed one call to a line, each call followed by the calls made during it. A root stands
at the margin. Below it, a line begins with one column for each ancestor that is no root, with a bar
if that ancestor has later siblings and blank if not, and then a branch, or a corner for the last
call among its siblings. The innermost outstanding call is marked at the end of its line.

`render` prints with a stack of the trees still to be printed, each with its columns, so it needs no
recursion however deep the calls nest. `outline` says the same by recursion on the trees.
-/

namespace Retrace

namespace CallTree

/-- How a call stands among its siblings. -/
inductive Place where
  | root
  | inner
  | last
deriving DecidableEq, Repr

namespace Place

/-- What leads from the columns to the label. -/
def connector : Place → String
  | root => ""
  | inner => "├── "
  | last => "└── "

/-- The column that a call adds for the calls below it. -/
def column : Place → String
  | root => ""
  | inner => "│   "
  | last => "    "

end Place

/-- The line of a call. -/
def line (columns : String) (place : Place) (c : CallSummary) : String :=
  columns ++ place.connector ++ c.label ++ (if c.isActive then " <" else "") ++ "\n"

/-- A tree still to be printed. -/
structure Pending where
  tree : CallTree
  /-- The columns at the front of its line. -/
  columns : String
  place : Place

namespace Pending

/-- The places of siblings: all inner but the last one. -/
def ofSiblings (columns : String) : List CallTree → List Pending
  | [] => []
  | [t] => [⟨t, columns, .last⟩]
  | t :: u :: ts => ⟨t, columns, .inner⟩ :: ofSiblings columns (u :: ts)

/-- The trees below a printed one. -/
def below (p : Pending) : List Pending :=
  ofSiblings (p.columns ++ p.place.column) p.tree.children

/-- The number of lines still to be printed. -/
def lines : List Pending → Nat
  | [] => 0
  | p :: ps => p.tree.count + lines ps

theorem lines_append (ps qs : List Pending) : lines (ps ++ qs) = lines ps + lines qs := by
  induction ps with
  | nil => simp [lines]
  | cons p ps ih => simp [lines, ih, Nat.add_assoc]

theorem lines_ofSiblings (columns : String) (ts : List CallTree) :
    lines (ofSiblings columns ts) = totalCount ts := by
  induction ts using ofSiblings.induct with
  | case1 => rfl
  | case2 t => rfl
  | case3 t u ts ih => rw [ofSiblings, lines, ih]; rfl

/-- Printing a tree leaves fewer lines pending than it had, which is why printing ends. -/
theorem lines_below_lt (p : Pending) : lines p.below < p.tree.count := by
  obtain ⟨⟨c, ts⟩, columns, place⟩ := p
  simp only [below, children, lines_ofSiblings, count]
  omega

end Pending

/-- Prints the pending trees after what is already printed. -/
def renderFrom (done : String) : List Pending → String
  | [] => done
  | p :: rest => renderFrom (done ++ line p.columns p.place p.tree.call) (p.below ++ rest)
termination_by pending => Pending.lines pending
decreasing_by
  rw [Pending.lines_append, Pending.lines]
  exact Nat.add_lt_add_right (Pending.lines_below_lt p) _

def render (roots : List CallTree) : String := renderFrom "" (roots.map (⟨·, "", .root⟩))

mutual

/-- A tree as text, its first line after the given columns. -/
def outline (columns : String) (place : Place) : CallTree → String
  | node c ts => line columns place c ++ outlineSiblings (columns ++ place.column) ts

/-- The text of siblings. -/
def outlineSiblings (columns : String) : List CallTree → String
  | [] => ""
  | t :: ts =>
    outline columns (if ts.isEmpty then .last else .inner) t ++ outlineSiblings columns ts

end

end CallTree

end Retrace
