import Retrace.CallTree.Basic
import Retrace.CallEvent
/-!
# Building the call tree

A tracker receives calls and returns one by one. It numbers the calls in their order, so a caller has
a smaller number than the calls it makes, and keeps the stack of those that have not returned; the
innermost of them is the active one. A return with no outstanding call is ignored.

`forest` assembles the trees from the last call to the first: when a call's turn comes, the trees of
the calls it made are ready and are moved under it, so no tree is ever copied.
-/

namespace Retrace

open Json (Value)

/-- A call that was tracked. -/
structure CallNode where
  id : Nat
  functionName : String
  arguments : List Value
  /-- The arguments as text. -/
  argumentsText : String
  /-- The value returned, none if undefined or not yet returned. -/
  returnValue : Option Value
  /-- The value returned, as text. -/
  returnText : Option String
  hasReturned : Bool
  isActive : Bool
  depth : Nat
  startStep : Nat
  endStep : Option Nat
  line : Option Nat
  /-- The calls made during it, in their order. -/
  children : Array Nat
  parent : Option Nat

namespace CallNode

/-- The node of a call that has just been made. -/
def ofCall (id depth : Nat) (parent : Option Nat) (c : Call) : CallNode where
  id := id
  functionName := c.functionName
  arguments := c.arguments
  argumentsText := Retrace.argumentsText .forCallTree c.arguments
  returnValue := none
  returnText := none
  hasReturned := false
  isActive := true
  depth := depth
  startStep := c.step
  endStep := none
  line := c.line
  children := #[]
  parent := parent

/-- A call made during this one becomes the active one. -/
def callingChild (n : CallNode) (child : Nat) : CallNode :=
  { n with children := n.children.push child, isActive := false }

/-- The call returns. -/
def returning (n : CallNode) (value : Option Value) (step : Nat) : CallNode :=
  { n with
    returnValue := value
    returnText := some (valueText .forCallTree value)
    hasReturned := true
    isActive := false
    endStep := some step }

/-- The call is the innermost outstanding one again. -/
def resuming (n : CallNode) : CallNode := { n with isActive := true }

/-- What is shown of the call. -/
def summary (n : CallNode) : CallSummary :=
  ⟨n.id, n.functionName, n.argumentsText, n.returnText, n.hasReturned, n.isActive, n.depth,
    n.startStep, n.endStep⟩

end CallNode

/-- The calls tracked so far. -/
structure Tracker where
  /-- The calls in their order; each stands at the index that is its number. -/
  nodes : Array CallNode
  /-- The calls made by no other call. -/
  roots : Array Nat
  /-- The calls that have not returned, innermost first. -/
  outstanding : List Nat

namespace Tracker

/-- No calls. -/
def empty : Tracker := ⟨#[], #[], []⟩

/-- A function is called. The second part is the number of the call. -/
def enter (t : Tracker) (c : Call) : Tracker × Nat :=
  let id := t.nodes.size
  let parent := t.outstanding.head?
  let nodes := t.nodes.push (.ofCall id t.outstanding.length parent c)
  let t' : Tracker :=
    match parent with
    | some p => { t with nodes := nodes.modify p (·.callingChild id) }
    | none => { t with nodes := nodes, roots := t.roots.push id }
  ({ t' with outstanding := id :: t.outstanding }, id)

/-- The innermost outstanding call returns. The second part is its number, if there is one. -/
def leave (t : Tracker) (value : Option Value) (step : Nat) : Tracker × Option Nat :=
  match t.outstanding with
  | [] => (t, none)
  | id :: callers =>
    let nodes := t.nodes.modify id (·.returning value step)
    let nodes :=
      match callers with
      | [] => nodes
      | caller :: _ => nodes.modify caller CallNode.resuming
    (⟨nodes, t.roots, callers⟩, some id)

/-- Follows a change of the call tree. -/
def follow (t : Tracker) : CallEvent → Tracker
  | .enter c => (t.enter c).1
  | .leave value step => (t.leave value step).1

def current? (t : Tracker) : Option Nat := t.outstanding.head?

def totalCalls (t : Tracker) : Nat := t.nodes.size

def maxDepth (t : Tracker) : Nat := t.nodes.foldl (fun deepest n => max deepest n.depth) 0

/-- Whether any call was made. -/
def hasTree (t : Tracker) : Bool := !t.roots.isEmpty

/-- Moves the tree at an index out of a table, if there is one. -/
def moveOut (built : Array (Option CallTree)) (i : Nat) :
    Option CallTree × Array (Option CallTree) :=
  if h : i < built.size then built.swapAt i none h else (none, built)

/-- Moves the trees at some indices out of a table, missing ones skipped. -/
def moveAllOut (built : Array (Option CallTree)) :
    List Nat → List CallTree × Array (Option CallTree)
  | [] => ([], built)
  | i :: ids =>
    let (tree, built) := moveOut built i
    let (trees, built) := moveAllOut built ids
    (tree.toList ++ trees, built)

/-- Puts the tree of a call at the index that is its number, over the trees of the calls it made, which
are moved out of the table. -/
def assemble (n : CallNode) (built : Array (Option CallTree)) : Array (Option CallTree) :=
  let (trees, built) := moveAllOut built n.children.toList
  built.setIfInBounds n.id (some (.node n.summary trees))

/-- The table of the trees, when those of all calls were put together. -/
def assembled (t : Tracker) : Array (Option CallTree) :=
  t.nodes.foldr assemble (Array.replicate t.nodes.size none)

/-- The trees of the calls made by no other call. -/
def forest (t : Tracker) : List CallTree := (moveAllOut t.assembled t.roots.toList).1

def hierarchy? (t : Tracker) : Option CallTree := t.forest.head?

end Tracker

end Retrace
