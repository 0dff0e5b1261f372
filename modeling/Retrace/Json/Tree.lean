import Retrace.Json.Value
/-!
# Documents as trees

A tree is what a JSON text says before it is given a meaning: members in the order written, keys
possibly repeated, numbers as literals. A string literal with half of a surrogate pair denotes no
text, which is no fault as long as nobody asks for the text.

`Tree.tokens` spells a tree out as tokens; the compact and the indented text of a tree are two ways
to set those tokens. `Tree.value?` gives the meaning, down to a bound on nesting.
-/

namespace Retrace.Json

/-- A JSON document as written. -/
inductive Tree where
  | null
  | bool (b : Bool)
  | number (n : Literal)
  /-- A string literal, with no text if it holds half of a surrogate pair. -/
  | string (s : Option String)
  | array (items : List Tree)
  | object (members : List (Option String × Tree))

/-- The tokens of JSON. -/
inductive Token where
  | openBracket
  | closeBracket
  | openBrace
  | closeBrace
  | comma
  | colon
  | null
  | bool (b : Bool)
  | number (n : Literal)
  | string (s : Option String)
deriving DecidableEq, Repr

/-- How a character stands in a string literal: quote, backslash and control characters are escaped,
everything else is written as it is. -/
def escape (c : Char) : List Char :=
  match c with
  | '"' => ['\\', '"']
  | '\\' => ['\\', '\\']
  | '\n' => ['\\', 'n']
  | '\r' => ['\\', 'r']
  | '\t' => ['\\', 't']
  | c =>
    if c.toNat = 8 then ['\\', 'b']
    else if c.toNat = 12 then ['\\', 'f']
    else if c.toNat < 32 then
      ['\\', 'u', '0', '0', if c.toNat < 16 then '0' else '1', Nat.digitChar (c.toNat % 16)]
    else [c]

/-- A string literal. One with no text is written as the escape of half a pair. -/
def quoted : Option String → List Char
  | some s => '"' :: s.toList.flatMap escape ++ ['"']
  | none => ['"', '\\', 'u', 'd', '8', '0', '0', '"']

def Token.chars : Token → List Char
  | openBracket => ['[']
  | closeBracket => [']']
  | openBrace => ['\x7b']
  | closeBrace => ['\x7d']
  | comma => [',']
  | colon => [':']
  | null => ['n', 'u', 'l', 'l']
  | bool true => ['t', 'r', 'u', 'e']
  | bool false => ['f', 'a', 'l', 's', 'e']
  | number n => n.chars
  | string s => quoted s

namespace Tree

mutual

def tokens : Tree → List Token
  | null => [.null]
  | bool b => [.bool b]
  | number n => [.number n]
  | string s => [.string s]
  | array [] => [.openBracket, .closeBracket]
  | array (t :: ts) => .openBracket :: (t.tokens ++ itemTokens ts)
  | object [] => [.openBrace, .closeBrace]
  | object ((k, t) :: ms) => .openBrace :: .string k :: .colon :: (t.tokens ++ memberTokens ms)

/-- The tokens after an item of an array. -/
def itemTokens : List Tree → List Token
  | [] => [.closeBracket]
  | t :: ts => .comma :: (t.tokens ++ itemTokens ts)

/-- The tokens after a member of an object. -/
def memberTokens : List (Option String × Tree) → List Token
  | [] => [.closeBrace]
  | (k, t) :: ms => .comma :: .string k :: .colon :: (t.tokens ++ memberTokens ms)

end

/-- The tree on one line, without blanks. -/
def compact (t : Tree) : String := String.ofList (t.tokens.flatMap Token.chars)

/-- A line break and the indentation of a nesting level, two blanks each. -/
def lineBreak (level : Nat) : List Char := '\n' :: List.replicate (2 * level) ' '

mutual

/-- The tree over several lines, at a nesting level: each item on a line of its own, a blank after
each colon, empty arrays and objects closed at once. -/
def indentedChars (level : Nat) : Tree → List Char
  | null => Token.null.chars
  | bool b => (Token.bool b).chars
  | number n => n.chars
  | string s => quoted s
  | array [] => ['[', ']']
  | array (t :: ts) =>
    '[' :: (lineBreak (level + 1) ++ t.indentedChars (level + 1) ++ indentedItems level ts)
  | object [] => ['\x7b', '\x7d']
  | object ((k, t) :: ms) =>
    '\x7b' :: (lineBreak (level + 1) ++ quoted k ++ [':', ' '] ++ t.indentedChars (level + 1)
      ++ indentedMembers level ms)

/-- What follows an item of an array. -/
def indentedItems (level : Nat) : List Tree → List Char
  | [] => lineBreak level ++ [']']
  | t :: ts =>
    ',' :: (lineBreak (level + 1) ++ t.indentedChars (level + 1) ++ indentedItems level ts)

/-- What follows a member of an object. -/
def indentedMembers (level : Nat) : List (Option String × Tree) → List Char
  | [] => lineBreak level ++ ['\x7d']
  | (k, t) :: ms =>
    ',' :: (lineBreak (level + 1) ++ quoted k ++ [':', ' '] ++ t.indentedChars (level + 1)
      ++ indentedMembers level ms)

end

/-- The tree over several lines, indented by two blanks a level. -/
def pretty (t : Tree) : String := String.ofList (t.indentedChars 0)

mutual

/-- The value a tree denotes, if it nests at most `depth` arrays and objects, every string has a
text and every number is small enough. -/
def value? (depth : Nat) : Tree → Option Value
  | null => some .null
  | bool b => some (.bool b)
  | number n => n.number?.map .number
  | string s => s.map .string
  | array items =>
    match depth with
    | 0 => none
    | depth + 1 => (itemValues? depth items).map .array
  | object members =>
    match depth with
    | 0 => none
    | depth + 1 => (memberValues? depth members).map .ofMembers

/-- The values of the items of an array. -/
def itemValues? (depth : Nat) : List Tree → Option (List Value)
  | [] => some []
  | t :: ts =>
    match t.value? depth, itemValues? depth ts with
    | some v, some vs => some (v :: vs)
    | _, _ => none

/-- The members of an object, in the order written. -/
def memberValues? (depth : Nat) : List (Option String × Tree) → Option (List (String × Value))
  | [] => some []
  | (k, t) :: ms =>
    match k, t.value? depth, memberValues? depth ms with
    | some k, some v, some vs => some ((k, v) :: vs)
    | _, _, _ => none

end

/-- A text as a tree. -/
def text (s : String) : Tree := .string (some s)

def nat (n : Nat) : Tree := .number (.ofInt n)

/-- An optional part, absent written as `null`. -/
def orNull (f : α → Tree) : Option α → Tree
  | none => .null
  | some a => f a

/-- An object with the given members, in their order. -/
def record (members : List (String × Tree)) : Tree :=
  .object (members.map fun m => (some m.1, m.2))

end Tree

namespace Value

mutual

/-- A value as a tree, the members of objects in the order of their keys. -/
def tree : Value → Tree
  | null => .null
  | bool b => .bool b
  | number n => .number n.literal
  | string s => .string (some s)
  | array items => .array (itemTrees items)
  | object members => .object (memberTrees members)

/-- The items of an array as trees. -/
def itemTrees : List Value → List Tree
  | [] => []
  | v :: vs => v.tree :: itemTrees vs

/-- The members of an object with their values as trees. -/
def memberTrees : List (String × Value) → List (Option String × Tree)
  | [] => []
  | (k, v) :: ms => (some k, v.tree) :: memberTrees ms

end

/-- The text of a value on one line. -/
def compact (v : Value) : String := v.tree.compact

end Value

end Retrace.Json
