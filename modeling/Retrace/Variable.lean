import Retrace.ValueText
import Retrace.Json.Decode
/-!
# Variables and scopes

A variable as it was captured: a name, a value unless it is undefined, the kind of the value and the
text to show. An explicit `null` is a value and not the lack of one.
-/

namespace Retrace

open Json (Value Tree Decoder)

/-- The kind of a captured value. -/
inductive ValueKind where
  | undefined
  | null
  | boolean
  | number
  | string
  | array
  | object
  | function
deriving DecidableEq, Repr

namespace ValueKind

def name : ValueKind → String
  | undefined => "undefined"
  | null => "null"
  | boolean => "boolean"
  | number => "number"
  | string => "string"
  | array => "array"
  | object => "object"
  | function => "function"

def all : List ValueKind := [undefined, null, boolean, number, string, array, object, function]

/-- The kind of a plain value; a function is never one. -/
def of : Option Value → ValueKind
  | none => undefined
  | some .null => null
  | some (.bool _) => boolean
  | some (.number _) => number
  | some (.string _) => string
  | some (.array _) => array
  | some (.object _) => object

def decoder : Decoder ValueKind := Decoder.word (all.map fun k => (k.name, k))

end ValueKind

/-- A captured variable. -/
structure Variable where
  name : String
  /-- The value, none if undefined. -/
  value : Option Value
  kind : ValueKind
  /-- The text to show. -/
  display : String

namespace Variable

/-- A variable whose kind and text follow from its value. -/
def ofValue (name : String) (value : Option Value) : Variable :=
  ⟨name, value, .of value, valueText .forVariable value⟩

/-- What stands for the value of a function. -/
def functionText : String := "[Function]"

/-- A variable that holds a function. -/
def ofFunction (name : String) : Variable :=
  ⟨name, some (.string functionText), .function, functionText⟩

/-- The items, if the variable is of kind array and does hold one. -/
def arrayItems? (v : Variable) : Option (List Value) :=
  match v.kind, v.value with
  | .array, some (.array items) => some items
  | _, _ => none

/-- A variable as a document, the value left out if undefined. -/
def tree (v : Variable) : Tree :=
  .record <|
    [("name", .text v.name)]
      ++ (match v.value with | some x => [("value", x.tree)] | none => [])
      ++ [("type", .text v.kind.name), ("display", .text v.display)]

/-- Reads a variable. Only the name is required; without a `value` it is undefined. -/
def decoder : Decoder Variable := fun depth t => do
  let r ← t.record? ["name", "value", "type", "display"] depth
  let name ← r.required "name" .string
  let value ← r.withDefault "value" none fun depth t => (t.value? depth).map some
  let kind ← r.withDefault "type" .undefined ValueKind.decoder
  let display ← r.withDefault "display" "" .string
  some ⟨name, value, kind, display⟩

end Variable

/-- One level of the scope chain. -/
structure Scope where
  name : String
  bindings : List Variable

namespace Scope

/-- The first variable of a name. -/
def find? (s : Scope) (name : String) : Option Variable := s.bindings.find? (·.name == name)

def tree (s : Scope) : Tree :=
  .record [("name", .text s.name), ("variables", .array (s.bindings.map Variable.tree))]

/-- Reads a scope; its variables may be left out. -/
def decoder : Decoder Scope := fun depth t => do
  let r ← t.record? ["name", "variables"] depth
  let name ← r.required "name" .string
  let bindings ← r.withDefault "variables" [] (.list Variable.decoder)
  some ⟨name, bindings⟩

end Scope

end Retrace
