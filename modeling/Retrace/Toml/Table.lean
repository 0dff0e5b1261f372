/-!
# TOML values and tables

A value is a scalar, an array or a table. While a document is read, a table also remembers how it
came to be (`Origin`), because that decides what may still be added to it:

* a header `[a.b]` defines `a.b`, once, and implies `a`, which a header of its own may define later;
* a dotted key `a.b = 1` makes `a`, to which only dotted keys may add;
* a header `[[a]]` adds a table to the array of tables `a`, and what follows goes to the last one.

A table written in braces is a value, to which nothing can be added.
-/

namespace Retrace.Toml

/-- A TOML value. -/
inductive Value where
  | string (s : String)
  | integer (n : Int)
  /-- A float, as written. -/
  | float (text : String)
  | boolean (b : Bool)
  /-- A date, a time or both, as written. -/
  | dateTime (text : String)
  | array (items : List Value)
  | table (members : List (String × Value))

/-- How a table came to be. -/
inductive Origin where
  /-- By a header of its own. -/
  | defined
  /-- By the header of a table below it. -/
  | implied
  /-- By a dotted key. -/
  | dotted
deriving DecidableEq, Repr

/-- What stands for a key while a document is read. -/
inductive Item where
  | value (v : Value)
  | table (origin : Origin) (members : List (String × Item))
  /-- An array of tables, the last one first. -/
  | tables (elements : List (List (String × Item)))

/-- The members of a table, each key once. -/
abbrev Members := List (String × Item)

namespace Members

/-- Replaces the item of a key, or adds it at the end. -/
def set (key : String) (item : Item) : Members → Members
  | [] => [(key, item)]
  | (k, i) :: rest => if k = key then (key, item) :: rest else (k, i) :: set key item rest

/-- Adds a member whose key is new. -/
def add? (key : String) (item : Item) (ms : Members) : Option Members :=
  match ms.lookup key with
  | none => some (ms ++ [(key, item)])
  | some _ => none

/-- Adds a value under a dotted key, given by the path before its last part. Tables missing on the
way are made; the table reached has to be one that dotted keys made. -/
def extend (key : String) (v : Value) : (path : List String) → Members → Option Members
  | [], ms => ms.add? key (.value v)
  | p :: path, ms =>
    match ms.lookup p with
    | none => (extend key v path []).map fun inner => ms.set p (.table .dotted inner)
    | some (.table .dotted inner) =>
      (extend key v path inner).map fun inner => ms.set p (.table .dotted inner)
    | some (.table .implied inner) =>
      if path.isEmpty then none
      else (extend key v path inner).map fun inner => ms.set p (.table .implied inner)
    | some (.tables (last :: earlier)) =>
      if path.isEmpty then none
      else (extend key v path last).map fun last => ms.set p (.tables (last :: earlier))
    | some _ => none

/-- Changes the table at the path of a header. Tables missing on the way are implied, and an array of
tables stands for its last one. -/
def within (change : Members → Option Members) : (path : List String) → Members → Option Members
  | [], ms => change ms
  | p :: path, ms =>
    match ms.lookup p with
    | none => (within change path []).map fun inner => ms.set p (.table .implied inner)
    | some (.table origin inner) =>
      (within change path inner).map fun inner => ms.set p (.table origin inner)
    | some (.tables (last :: earlier)) =>
      (within change path last).map fun last => ms.set p (.tables (last :: earlier))
    | some _ => none

/-- Defines the table of a key, which may be implied already. -/
def define (key : String) (ms : Members) : Option Members :=
  match ms.lookup key with
  | none => some (ms.set key (.table .defined []))
  | some (.table .implied inner) => some (ms.set key (.table .defined inner))
  | some _ => none

/-- Adds an empty table to the array of tables of a key. -/
def addElement (key : String) (ms : Members) : Option Members :=
  match ms.lookup key with
  | none => some (ms.set key (.tables [[]]))
  | some (.tables elements) => some (ms.set key (.tables ([] :: elements)))
  | some _ => none

end Members

mutual

def Item.toValue : Item → Value
  | .value v => v
  | .table _ ms => .table (memberValues ms)
  | .tables elements => .array (tableValues elements).reverse

/-- The values of the members of a table. -/
def memberValues : List (String × Item) → List (String × Value)
  | [] => []
  | (k, i) :: ms => (k, i.toValue) :: memberValues ms

def tableValues : List (List (String × Item)) → List Value
  | [] => []
  | ms :: rest => .table (memberValues ms) :: tableValues rest

end

end Retrace.Toml
