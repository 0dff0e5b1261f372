import Retrace.Proofs.CallTree.Forest
import Retrace.Proofs.CallTree.Growth
/-!
# Calls planned in advance

A plan is a finite ordered forest of calls, given before anything is played (`CallPlan`). Played from a
call stack, a plan pushes the frame of each call, plays the calls made during it, and pops the frame:
`CallPlan.walk` lists the call stacks that are shown on the way, one for each push and each pop.

Numbering the calls in the order of their pushes, and the places of the walk from some place on, gives
the trees that are to be expected of the walk (`CallPlan.trees`) and the nodes that a tracker has to
hold for them (`CallPlan.nodes`). A well-formed tracker that holds these nodes shows these trees
(`forest_of_plan`).
-/

namespace Retrace

open Json (Value)

/-- A call of a named function, with the calls to be made during it. -/
inductive CallPlan where
  | call (frame : Frame) (named : frame.isNamedCall = true) (calls : List CallPlan)

namespace CallPlan

mutual

/-- The number of calls. -/
def size : CallPlan → Nat
  | call _ _ calls => 1 + totalSize calls

/-- The number of calls in a forest. -/
def totalSize : List CallPlan → Nat
  | [] => 0
  | p :: ps => p.size + totalSize ps

end

mutual

/-- The call stacks shown by a call that is made on a call stack: one when its frame is pushed, those
of the calls it makes, and one when its frame is popped. -/
def walk (stack : List Frame) : CallPlan → List (List Frame)
  | call frame _ calls => (frame :: stack) :: (walkAll (frame :: stack) calls ++ [stack])

/-- The call stacks shown by several calls, one after the other. -/
def walkAll (stack : List Frame) : List CallPlan → List (List Frame)
  | [] => []
  | p :: ps => p.walk stack ++ walkAll stack ps

end

mutual

/-- The tree to be expected of a call, where `id` is its number, `step` the place of its push and
`depth` the number of calls around it. `returned` tells what is returned at a place. -/
def tree (returned : Nat → Option Value) (depth id step : Nat) : CallPlan → CallTree
  | call frame _ calls =>
    .node
      { id := id
        name := frame.functionName
        arguments := ", ".intercalate frame.arguments
        returnValue := some (valueText .forCallTree (returned (step + 2 * totalSize calls + 1)))
        hasReturned := true
        isActive := false
        depth := depth
        startStep := step
        endStep := some (step + 2 * totalSize calls + 1) }
      (trees returned (depth + 1) (id + 1) (step + 1) calls)

/-- The trees to be expected of several calls, one after the other. -/
def trees (returned : Nat → Option Value) (depth id step : Nat) : List CallPlan → List CallTree
  | [] => []
  | p :: ps =>
    p.tree returned depth id step :: trees returned depth (id + p.size) (step + 2 * p.size) ps

end

/-- The numbers of several calls, one after the other. -/
def ids (id : Nat) : List CallPlan → List Nat
  | [] => []
  | p :: ps => id :: ids (id + p.size) ps

mutual

/-- The nodes of a call and of the calls made during it. -/
def nodes (returned : Nat → Option Value) (parent : Option Nat) (depth id step : Nat) :
    CallPlan → List CallNode
  | call frame _ calls =>
    Tracker.overNode id depth parent
        ⟨frame.functionName, frame.arguments.map .string, step, frame.line⟩ (ids (id + 1) calls)
        (returned (step + 2 * totalSize calls + 1)) (step + 2 * totalSize calls + 1)
      :: nodesAll returned (some id) (depth + 1) (id + 1) (step + 1) calls

/-- The nodes of several calls, one after the other. -/
def nodesAll (returned : Nat → Option Value) (parent : Option Nat) (depth id step : Nat) :
    List CallPlan → List CallNode
  | [] => []
  | p :: ps =>
    p.nodes returned parent depth id step
      ++ nodesAll returned parent depth (id + p.size) (step + 2 * p.size) ps

end

mutual

theorem length_walk (stack : List Frame) : ∀ p : CallPlan, (p.walk stack).length = 2 * p.size
  | call frame _ calls => by
    rw [walk, size, List.length_cons, List.length_append, length_walkAll (frame :: stack) calls]
    rw [List.length_singleton]
    omega

theorem length_walkAll (stack : List Frame) :
    ∀ ps : List CallPlan, (walkAll stack ps).length = 2 * totalSize ps
  | [] => rfl
  | p :: ps => by
    rw [walkAll, totalSize, List.length_append, length_walk stack p, length_walkAll stack ps]
    omega

end

mutual

theorem length_nodes (returned : Nat → Option Value) :
    ∀ (p : CallPlan) (parent : Option Nat) (depth id step : Nat),
      (p.nodes returned parent depth id step).length = p.size
  | call _ _ calls, _, depth, id, step => by
    rw [nodes, size, List.length_cons, length_nodesAll returned calls]
    omega

theorem length_nodesAll (returned : Nat → Option Value) :
    ∀ (ps : List CallPlan) (parent : Option Nat) (depth id step : Nat),
      (nodesAll returned parent depth id step ps).length = totalSize ps
  | [], _, _, _, _ => rfl
  | p :: ps, parent, depth, id, step => by
    rw [nodesAll, totalSize, List.length_append, length_nodes returned p,
      length_nodesAll returned ps]

end

/-! ## The trees of the nodes -/

theorem argumentsText_strings (limits : TextLimits) (texts : List String) :
    argumentsText limits (texts.map .string) = ", ".intercalate texts := by
  unfold argumentsText
  rw [List.map_map]
  congr 1
  exact List.map_id texts

section Trees

variable {t : Tracker} {returned : Nat → Option Value}

mutual

/-- Where the nodes of a call are, there its tree is built. -/
theorem builtTrees_of_nodes (hw : t.WellFormed) :
    ∀ (p : CallPlan) (parent : Option Nat) (depth id step : Nat),
      (∀ (k : Nat) (n : CallNode), (p.nodes returned parent depth id step)[k]? = some n →
        t.nodes[id + k]? = some n) →
      t.builtTrees[id]? = some (some (p.tree returned depth id step))
  | call frame _ calls, parent, depth, id, step, h => by
    -- the first node is that of the call, the others are those of the calls made during it
    have hcalls := treesAt_of_nodes hw calls (some id) (depth + 1) (id + 1) (step + 1) fun k n hn => by
      have hplace : id + 1 + k = id + (k + 1) := by omega
      rw [hplace]
      exact h (k + 1) n (by rw [nodes]; exact hn)
    have hnode := h 0 _ (by rw [nodes]; rfl)
    rw [Nat.add_zero] at hnode
    rw [Tracker.getElem?_builtTrees hw hnode, tree, ← hcalls,
      ← argumentsText_strings .forCallTree frame.arguments]
    rfl

theorem treesAt_of_nodes (hw : t.WellFormed) :
    ∀ (ps : List CallPlan) (parent : Option Nat) (depth id step : Nat),
      (∀ (k : Nat) (n : CallNode), (nodesAll returned parent depth id step ps)[k]? = some n →
        t.nodes[id + k]? = some n) →
      Tracker.treesAt t.builtTrees (ids id ps).toArray = trees returned depth id step ps
  | [], _, _, _, _, _ => rfl
  | p :: ps, parent, depth, id, step, h => by
    have hlength := length_nodes returned p parent depth id step
    have hfirst := builtTrees_of_nodes hw p parent depth id step fun k n hn => by
      refine h k n ?_
      have hk := (List.getElem?_eq_some_iff.mp hn).choose
      rw [nodesAll, List.getElem?_append_left hk]
      exact hn
    have hrest := treesAt_of_nodes hw ps parent depth (id + p.size) (step + 2 * p.size) fun k n hn => by
      have hplace : id + p.size + k = id + (p.size + k) := by omega
      rw [hplace]
      refine h (p.size + k) n ?_
      rw [nodesAll, List.getElem?_append_right (by omega), hlength, Nat.add_sub_cancel_left]
      exact hn
    unfold Tracker.treesAt at hrest ⊢
    rw [List.toList_toArray] at hrest ⊢
    rw [ids, List.filterMap_cons, hfirst, trees, ← hrest]
    rfl

end

end Trees

/-- A tracker that grew from nothing by planned calls shows the trees to be expected of them. -/
theorem forest_of_plan {returned : Nat → Option Value} {t : Tracker} {step : Nat}
    {plans : List CallPlan} (hw : t.WellFormed)
    (h : Tracker.empty.Grown (ids 0 plans) (nodesAll returned none 0 0 step plans) t) :
    t.forest = trees returned 0 0 step plans := by
  have hroots : t.roots = (ids 0 plans).toArray := by
    have hlist : t.roots.toList = ids 0 plans := by
      rw [h.roots_eq]
      rfl
    rw [← hlist, Array.toArray_toList]
  rw [Tracker.forest_eq_treesAt hw, hroots]
  refine treesAt_of_nodes hw plans none 0 0 step ?_
  intro k n hn
  rw [← hn]
  exact h.new k

end CallPlan

end Retrace
