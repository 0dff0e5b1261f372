/-!
# Call trees

A call with the calls made during it, in their order. The summary of a call is what is shown of it;
its label is the line that stands for it in a printed tree.
-/

namespace Retrace

/-- What is shown of a call. -/
structure CallSummary where
  /-- The number of the call, counted from zero in the order of the calls. -/
  id : Nat
  name : String
  /-- The arguments as text. -/
  arguments : String
  /-- The value returned, as text. -/
  returnValue : Option String
  hasReturned : Bool
  /-- Whether this is the innermost call that has not returned. -/
  isActive : Bool
  /-- The number of calls around it. -/
  depth : Nat
  startStep : Nat
  endStep : Option Nat
deriving DecidableEq, Repr

namespace CallSummary

/-- The call as text, with the value it returned. -/
def label (c : CallSummary) : String :=
  let head := c.name ++ "(" ++ c.arguments ++ ")"
  match c.returnValue with
  | some v => if c.hasReturned then head ++ " => " ++ v else head
  | none => head

end CallSummary

/-- A call and the calls made during it. -/
inductive CallTree where
  | node (call : CallSummary) (children : List CallTree)

namespace CallTree

/-- The call at the root. -/
def call : CallTree → CallSummary
  | node c _ => c

def children : CallTree → List CallTree
  | node _ ts => ts

def label (t : CallTree) : String := t.call.label

mutual

/-- The number of calls in a tree, by recursion on it. -/
def count : CallTree → Nat
  | node _ ts => 1 + totalCount ts

/-- The number of calls in a forest. -/
def totalCount : List CallTree → Nat
  | [] => 0
  | t :: ts => t.count + totalCount ts

end

theorem totalCount_append (ts us : List CallTree) :
    totalCount (ts ++ us) = totalCount ts + totalCount us := by
  induction ts with
  | nil => simp [totalCount]
  | cons t ts ih => simp [totalCount, ih, Nat.add_assoc]

theorem totalCount_reverse (ts : List CallTree) : totalCount ts.reverse = totalCount ts := by
  induction ts with
  | nil => rfl
  | cons t ts ih =>
    rw [List.reverse_cons, totalCount_append, ih]
    simp [totalCount, Nat.add_comm]

/-- Counts the pending trees after those that are already counted. The tree on top is counted, and the
trees below it go on top of the others, the last one first. -/
def countFrom (counted : Nat) : List CallTree → Nat
  | [] => counted
  | t :: rest => countFrom (counted + 1) (t.children.reverse ++ rest)
termination_by pending => totalCount pending
decreasing_by
  obtain ⟨c, ts⟩ := t
  rw [totalCount_append, totalCount_reverse, totalCount, count, children]
  omega

/-- The number of calls in a tree, counted without recursion however deep the calls nest. -/
def size (t : CallTree) : Nat := countFrom 0 [t]

end CallTree

end Retrace
