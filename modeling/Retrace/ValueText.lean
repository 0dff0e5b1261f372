import Retrace.Json.Tree
/-!
# Values as short text

How a captured value is shown: in quotes if it is a text, by its items if it is an array, and
otherwise as JSON on one line. `TextLimits` says where each of these is cut. Two rules are less
obvious. An item of an array stands bare, without quotes and uncut. And an object with the members
`value` and `left` is a node of a binary tree, shown by its value alone, however deep that lies.
-/

namespace Retrace

open Json (Value)

/-- Where the text of a value is cut. -/
structure TextLimits where
  /-- The characters kept of a text. -/
  maxString : Nat
  /-- The items kept of an array. -/
  maxArray : Nat
  /-- The characters kept of an object's JSON text. -/
  maxObject : Nat
  /-- Whether an array that is cut tells how many items it has. -/
  countSuffix : Bool
deriving DecidableEq, Repr

namespace TextLimits

/-- For the arguments and return values in a call tree. -/
def forCallTree : TextLimits := ⟨15, 5, 20, false⟩

/-- For the arguments of a call frame. -/
def forArgument : TextLimits := ⟨20, 5, 30, false⟩

/-- For variables. -/
def forVariable : TextLimits := ⟨30, 10, 50, true⟩

end TextLimits

/-- What stands for the part of a text that was cut. -/
def cutMark : String := "..."

/-- The first `max` characters, with a mark if there are more. -/
def truncate (text : String) (max : Nat) : String :=
  let chars := text.toList
  if chars.length ≤ max then text else String.ofList (chars.take max) ++ cutMark

/-- Whether an object's members make it a node of a binary tree. -/
def isTreeNode (members : List (String × Value)) : Bool :=
  (members.any fun m => m.1 == "value") && members.any fun m => m.1 == "left"

mutual

/-- A value as an item of an array. -/
def itemText : Value → String
  | .string s => s
  | .object members =>
    if isTreeNode members then nodeText members else (Value.object members).compact
  | v => v.compact

/-- The value of a tree node as an item. -/
def nodeText : List (String × Value) → String
  | [] => ""
  | (k, v) :: rest => if k = "value" then itemText v else nodeText rest

end

/-- The items of an array, as far as they are shown. -/
def arrayText (items : List Value) (limits : TextLimits) : String :=
  let shown := ", ".intercalate ((items.take limits.maxArray).map itemText)
  if items.length ≤ limits.maxArray then "[" ++ shown ++ "]"
  else if limits.countSuffix then
    "[" ++ shown ++ ", " ++ cutMark ++ " (" ++ decimalText items.length ++ " items)]"
  else "[" ++ shown ++ ", " ++ cutMark ++ "]"

/-- An object: a tree node by its value, any other by its JSON text. -/
def objectText (members : List (String × Value)) (limits : TextLimits) : String :=
  if isTreeNode members then "Tree Node (value: " ++ nodeText members ++ ")"
  else truncate (Value.object members).compact limits.maxObject

/-- A value that may be missing, as short text. -/
def valueText (limits : TextLimits) : Option Value → String
  | none => "undefined"
  | some (.string s) => "\"" ++ truncate s limits.maxString ++ "\""
  | some (.array items) => arrayText items limits
  | some (.object members) => objectText members limits
  | some v => v.compact

/-- A list of arguments. A text stands as it is, because whoever hands over arguments as texts has
already put them into words. -/
def argumentsText (limits : TextLimits) (arguments : List Value) : String :=
  ", ".intercalate <| arguments.map fun
    | .string s => s
    | v => valueText limits (some v)

end Retrace
