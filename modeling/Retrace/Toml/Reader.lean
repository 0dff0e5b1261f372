import Retrace.Toml.Scalar
import Retrace.Toml.Text
/-!
# Reading TOML documents

A document is a list of statements: a key with its value, the header of a table, or the header of an
element of an array of tables. They are read first and then applied one after the other to an empty
table (`apply`). Arrays and tables in braces nest at most `maxDepth` deep; both may go over several
lines, hold comments and end in a comma.
-/

namespace Retrace.Toml

/-- The deepest nesting of values. -/
def maxDepth : Nat := 80

/-- Drops blanks, line breaks and comments; nothing if a comment holds a forbidden character. -/
def skipFiller : (inComment : Bool) → List Char → Option (List Char)
  | _, [] => some []
  | _, '\n' :: s => skipFiller false s
  | _, '\r' :: '\n' :: s => skipFiller false s
  | true, c :: s => if isForbidden c then none else skipFiller true s
  | false, c :: s =>
    if isBlank c then skipFiller false s
    else if c = '#' then skipFiller true s
    else some (c :: s)

/-- Reads the mark between a key and its value, and the blanks after it. -/
def readEquals : List Char → Option (List Char)
  | '=' :: s => some (dropBlanks s)
  | _ => none

mutual

/-- Reads a value. `fuel` bounds the characters read. -/
def readValue : (fuel depth : Nat) → List Char → Option (Value × List Char)
  | 0, _, _ => none
  | fuel + 1, depth, s =>
    match s with
    | '"' :: s => (readQuoted .basic s).map fun r => (.string r.1, r.2)
    | '\'' :: s => (readQuoted .literal s).map fun r => (.string r.1, r.2)
    | '[' :: s =>
      match depth with
      | 0 => none
      | depth + 1 => readItems fuel depth [] s
    | '\x7b' :: s =>
      match depth with
      | 0 => none
      | depth + 1 => readMembers fuel depth [] s
    | s => readScalar s

/-- Reads the items of an array up to its closing bracket; `done` holds those so far, last first. -/
def readItems : (fuel depth : Nat) → (done : List Value) → List Char → Option (Value × List Char)
  | 0, _, _, _ => none
  | fuel + 1, depth, done, s => do
    let s ← skipFiller false s
    match s with
    | ']' :: s => some (.array done.reverse, s)
    | s =>
      let (v, s) ← readValue fuel depth s
      let s ← skipFiller false s
      match s with
      | ',' :: s => readItems fuel depth (v :: done) s
      | ']' :: s => some (.array (v :: done).reverse, s)
      | _ => none

/-- Reads the members of a table up to its closing brace. -/
def readMembers : (fuel depth : Nat) → (done : Members) → List Char → Option (Value × List Char)
  | 0, _, _, _ => none
  | fuel + 1, depth, done, s => do
    let s ← skipFiller false s
    match s with
    | '\x7d' :: s => some (.table (memberValues done), s)
    | s =>
      let (key, s) ← readKey s
      let s ← readEquals s
      let (v, s) ← readValue fuel depth s
      let done ← done.extend key.name v key.path
      let s ← skipFiller false s
      match s with
      | ',' :: s => readMembers fuel depth done s
      | '\x7d' :: s => some (.table (memberValues done), s)
      | _ => none

end

/-- A statement of a document. -/
inductive Statement where
  /-- A key with its value. -/
  | entry (key : Key) (value : Value)
  /-- The header of a table. -/
  | table (key : Key)
  /-- The header of an element of an array of tables. -/
  | element (key : Key)

def readStatement (s : List Char) : Option (Statement × List Char) :=
  match s with
  | '[' :: '[' :: s =>
    match readKey s with
    | some (key, ']' :: ']' :: s) => some (.element key, s)
    | _ => none
  | '[' :: s =>
    match readKey s with
    | some (key, ']' :: s) => some (.table key, s)
    | _ => none
  | s => do
    let (key, s) ← readKey s
    let s ← readEquals s
    let (v, s) ← readValue (2 * s.length + 2) maxDepth s
    some (.entry key v, s)

/-- Whether a text begins with the end of a line, a comment being part of that. -/
def endsLine (s : List Char) : Bool :=
  match s with
  | [] => true
  | c :: _ => c == '#' || (dropBreak? s).isSome

/-- Reads statements up to the end of the text; `done` holds those so far, last first, and `fuel`
bounds their number. -/
def readStatements : (fuel : Nat) → (done : List Statement) → List Char → Option (List Statement)
  | 0, _, _ => none
  | fuel + 1, done, s => do
    let s ← skipFiller false s
    match s with
    | [] => some done.reverse
    | s =>
      let (statement, s) ← readStatement s
      let s := dropBlanks s
      if endsLine s then readStatements fuel (statement :: done) s else none

/-- A document being assembled: its members, and the path of the table that entries go to. -/
structure Assembly where
  root : Members
  here : List String

namespace Assembly

def apply (a : Assembly) : Statement → Option Assembly
  | .entry key v => (a.root.within (·.extend key.name v key.path) a.here).map fun root => ⟨root, a.here⟩
  | .table key => (a.root.within (·.define key.name) key.path).map fun root => ⟨root, key.parts⟩
  | .element key => (a.root.within (·.addElement key.name) key.path).map fun root => ⟨root, key.parts⟩

end Assembly

/-- The table that a document spells, if it is TOML. A byte order mark may stand at its front. -/
def parse? (text : String) : Option (List (String × Value)) := do
  let s := match text.toList with
    | c :: s => if c.toNat = 0xFEFF then s else c :: s
    | [] => []
  let statements ← readStatements (s.length + 1) [] s
  let a ← statements.foldlM Assembly.apply ⟨[], []⟩
  some (memberValues a.root)

end Retrace.Toml
