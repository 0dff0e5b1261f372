import Retrace.Trace.Basic
/-!
# Traces as documents

A trace document holds the list of entries; of an entry every field may be left out. A document with
no entries is refused, and the variables of one that is accepted are completed.
-/

namespace Retrace

open Json (Tree Decoder)

namespace Entry

/-- An entry as a document, its node type and error left out if it has none. -/
def tree (e : Entry) : Tree :=
  .record <|
    [("line", .orNull .nat e.line), ("column", .orNull .nat e.column)]
      ++ (match e.nodeType with | some n => [("node_type", .text n)] | none => [])
      ++ [("call_stack", .array (e.frames.map Frame.tree)),
        ("variables", .array (e.scopes.map Scope.tree))]
      ++ (match e.error with | some m => [("error", .text m)] | none => [])

def decoder : Decoder Entry := fun depth t => do
  let r ← t.record? ["line", "column", "node_type", "call_stack", "variables", "error"] depth
  let line ← r.withDefault "line" none (.option .nat)
  let column ← r.withDefault "column" none (.option .nat)
  let nodeType ← r.withDefault "node_type" none (.option .string)
  let frames ← r.withDefault "call_stack" [] (.list Frame.decoder)
  let scopes ← r.withDefault "variables" [] (.list Scope.decoder)
  let error ← r.withDefault "error" none (.option .string)
  some ⟨line, column, nodeType, frames, scopes, error⟩

end Entry

namespace Trace

def tree (t : Trace) : Tree := .record [("steps", .array (t.entries.toList.map Entry.tree))]

/-- The text of a trace document. -/
def text (t : Trace) : String := t.tree.pretty

/-- Reads a trace as it is written, with or without entries. -/
def decoder : Decoder Trace := fun depth t => do
  let r ← t.record? ["steps"] depth
  let entries ← r.required "steps" (.list Entry.decoder)
  some ⟨entries.toArray⟩

/-- What is said of a document without entries. -/
def noEntries : String := "trace contains no steps"

def read (text : String) : Except RunFailure Trace :=
  match Json.decode? decoder text with
  | none => .error (.load Json.malformed)
  | some t => if t.entries.isEmpty then .error (.load noEntries) else .ok t.completed

end Trace

end Retrace
