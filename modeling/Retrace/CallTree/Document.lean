import Retrace.CallTree.Basic
import Retrace.Json.Decode
/-!
# Call trees as documents

A call is written with its summary and the list of the calls made during it. A missing value or end
is left out and not written as `null`, though `null` is read as missing.
-/

namespace Retrace

open Json (Tree Decoder)

namespace CallSummary

/-- The members of a call's document before its children. -/
def members (c : CallSummary) : List (String × Tree) :=
  [("id", .nat c.id), ("name", .text c.name), ("arguments", .text c.arguments)]
    ++ (match c.returnValue with | some v => [("return_value", .text v)] | none => [])
    ++ [("has_returned", .bool c.hasReturned), ("is_active", .bool c.isActive),
      ("depth", .nat c.depth), ("start_step", .nat c.startStep)]
    ++ (match c.endStep with | some n => [("end_step", .nat n)] | none => [])

end CallSummary

namespace CallTree

mutual

def tree : CallTree → Tree
  | node c ts => .record (c.members ++ [("children", .array (trees ts))])

def trees : List CallTree → List Tree
  | [] => []
  | t :: ts => t.tree :: trees ts

end

def forestTree (ts : List CallTree) : Tree := .array (trees ts)

/-- The fields of a call's document. -/
def fieldNames : List String :=
  ["id", "name", "arguments", "return_value", "has_returned", "is_active", "depth", "start_step",
    "end_step", "children"]

/-- Reads a call tree of at most the given height. -/
def decoderTo : (height : Nat) → Decoder CallTree
  | 0 => fun _ _ => none
  | height + 1 => fun depth t => do
    let r ← t.record? fieldNames depth
    let id ← r.required "id" .nat
    let name ← r.required "name" .string
    let arguments ← r.required "arguments" .string
    let returnValue ← r.optional "return_value" .string
    let hasReturned ← r.required "has_returned" .bool
    let isActive ← r.required "is_active" .bool
    let callDepth ← r.required "depth" .nat
    let startStep ← r.required "start_step" .nat
    let endStep ← r.optional "end_step" .nat
    let children ← r.required "children" (.list (decoderTo height))
    some (.node ⟨id, name, arguments, returnValue, hasReturned, isActive, callDepth, startStep,
      endStep⟩ children)

/-- Reads a call tree; the nesting of the document bounds its height. -/
def decoder : Decoder CallTree := fun depth t => decoderTo depth depth t

end CallTree

end Retrace
