import Retrace.Json.Reader
/-!
# Decoding documents

A decoder gives a tree a meaning, down to a bound on the nesting of the arrays and objects that it
enters (`maxDepth` for a whole document); what it ignores may nest deeper.

A record is written as an object or as an array of its fields in their order. In an object unknown
fields are ignored, a known field may not be repeated, and an optional one may be missing. In an
array only fields at the end that have a default may be missing. `Record` holds the fields found
either way.
-/

namespace Retrace.Json

/-- The deepest nesting of a document. -/
def maxDepth : Nat := 127

/-- Reads a meaning off a tree, entering at most the given number of arrays and objects. -/
abbrev Decoder (α : Type) := Nat → Tree → Option α

namespace Decoder

def value : Decoder Value := fun depth t => t.value? depth

def string : Decoder String
  | _, .string s => s
  | _, _ => none

def bool : Decoder Bool
  | _, .bool b => some b
  | _, _ => none

/-- A natural number of 64 bits, written without sign, point and exponent. -/
def nat : Decoder Nat
  | _, .number n => if n.isWhole && !n.negative && n.whole < 1 <<< 64 then some n.whole else none
  | _, _ => none

/-- An optional part: `null` stands for none. -/
def option (decode : Decoder α) : Decoder (Option α)
  | _, .null => some none
  | depth, t => (decode depth t).map some

def list (decode : Decoder α) : Decoder (List α)
  | depth + 1, .array ts => ts.mapM (decode depth)
  | _, _ => none

/-- One of a list of words, written as a string or as an object with the word as its only key and
`null` as its value. -/
def word (words : List (String × α)) : Decoder α
  | _, .string (some s) => words.lookup s
  | _ + 1, .object [(some s, .null)] => words.lookup s
  | _, _ => none

end Decoder

/-- The fields of a record that a document gives. -/
structure Record where
  /-- Whether the fields are given by name and not by position. -/
  named : Bool
  fields : List (String × Tree)
  /-- The nesting left for the fields. -/
  depth : Nat

/-- The members with the names of a record's fields; nothing if some key has no text. -/
def knownMembers? (names : List String) :
    List (Option String × Tree) → Option (List (String × Tree))
  | [] => some []
  | (none, _) :: _ => none
  | (some k, t) :: ms =>
    (knownMembers? names ms).map fun known => if names.contains k then (k, t) :: known else known

/-- The fields of a record with the given field names, in their order. -/
def Tree.record? (names : List String) : Decoder Record
  | depth + 1, .object members =>
    match knownMembers? names members with
    | none => none
    | some known => if (known.map Prod.fst).Nodup then some ⟨true, known, depth⟩ else none
  | depth + 1, .array items =>
    if items.length ≤ names.length then some ⟨false, names.zip items, depth⟩ else none
  | _, _ => none

namespace Record

/-- A field that must be there. -/
def required (r : Record) (name : String) (decode : Decoder α) : Option α :=
  (r.fields.lookup name).bind (decode r.depth)

/-- A field with a default. -/
def withDefault (r : Record) (name : String) (default : α) (decode : Decoder α) : Option α :=
  match r.fields.lookup name with
  | some t => decode r.depth t
  | none => some default

/-- An optional field without a default: it may be left out of an object, but not of an array. -/
def optional (r : Record) (name : String) (decode : Decoder α) : Option (Option α) :=
  match r.fields.lookup name with
  | some t => decode.option r.depth t
  | none => if r.named then some none else none

end Record

/-- What a text denotes for a decoder. -/
def decode? (decode : Decoder α) (text : String) : Option α :=
  (Tree.parse? text).bind (decode maxDepth)

end Retrace.Json
