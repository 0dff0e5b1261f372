import Retrace.Json.Decode
/-!
# Call frames

A frame of the call stack: the function, its arguments as texts, and where the call stands. Code at
the top level has a frame of its own, which is no call.
-/

namespace Retrace

open Json (Tree Decoder)

/-- A frame of the call stack. -/
structure Frame where
  functionName : String
  arguments : List String
  line : Option Nat
  column : Option Nat
deriving DecidableEq, Repr

namespace Frame

/-- The name of the frame of top-level code. -/
def globalName : String := "(global)"

/-- The frame of top-level code. -/
def global (line : Option Nat) : Frame := ⟨globalName, [], line, some 0⟩

/-- Whether this is the frame of top-level code. -/
def isGlobal (f : Frame) : Bool := f.functionName == globalName

/-- Whether the frame is the call of a function with a name. -/
def isNamedCall (f : Frame) : Bool := f.functionName != "" && !f.isGlobal

/-- The frame as text, with its line if it has one. -/
def text (f : Frame) : String :=
  f.functionName ++ "(" ++ ", ".intercalate f.arguments ++ ")"
    ++ f.line.elim "" (" @ line " ++ decimalText ·)

def tree (f : Frame) : Tree :=
  .record [
    ("function_name", .text f.functionName),
    ("arguments", .array (f.arguments.map .text)),
    ("line", .orNull .nat f.line),
    ("column", .orNull .nat f.column)]

/-- Reads a frame; only the function's name is required. -/
def decoder : Decoder Frame := fun depth t => do
  let r ← t.record? ["function_name", "arguments", "line", "column"] depth
  let functionName ← r.required "function_name" .string
  let arguments ← r.withDefault "arguments" [] (.list .string)
  let line ← r.withDefault "line" none (.option .nat)
  let column ← r.withDefault "column" none (.option .nat)
  some ⟨functionName, arguments, line, column⟩

end Frame

end Retrace
