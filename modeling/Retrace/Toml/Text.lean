import Retrace.Text.Hexadecimal
/-!
# TOML texts and keys

A text stands between quotes, single ones (`Style.literal`) or double ones, which allow escapes
(`Style.basic`), and between three of them it may go over several lines. Control characters other
than the tab are refused.

A key is a run of letters, digits, `_` and `-`, or a text on one line; a dotted key is several of
these with points between them.
-/

namespace Retrace.Toml

/-- Whether a character is a blank. -/
def isBlank (c : Char) : Bool := c == ' ' || c == '\t'

/-- A text without the blanks at its front. -/
def dropBlanks (s : List Char) : List Char := s.dropWhile isBlank

/-- Whether a character may not stand in texts and comments. -/
def isForbidden (c : Char) : Bool := (c.toNat < 32 && c != '\t') || c.toNat == 127

/-- The two kinds of quotes. -/
inductive Style where
  | basic
  | literal
deriving DecidableEq, Repr

def Style.mark : Style → Char
  | basic => '"'
  | literal => '\''

/-- Reads the code of a character in hexadecimal digits. -/
def readCode (width : Nat) (s : List Char) : Option (Char × List Char) :=
  if s.length < width then none
  else
    match hexNumber? (s.take width) with
    | some n => if n.isValidChar then some (Char.ofNat n, s.drop width) else none
    | none => none

/-- Reads an escape after its backslash. -/
def readEscape : List Char → Option (Char × List Char)
  | 'b' :: s => some (Char.ofNat 8, s)
  | 't' :: s => some ('\t', s)
  | 'n' :: s => some ('\n', s)
  | 'f' :: s => some (Char.ofNat 12, s)
  | 'r' :: s => some ('\r', s)
  | 'e' :: s => some (Char.ofNat 27, s)
  | '"' :: s => some ('"', s)
  | '\\' :: s => some ('\\', s)
  | 'x' :: s => readCode 2 s
  | 'u' :: s => readCode 4 s
  | 'U' :: s => readCode 8 s
  | _ => none

/-- Drops a line break. -/
def dropBreak? : List Char → Option (List Char)
  | '\n' :: s => some s
  | '\r' :: '\n' :: s => some s
  | _ => none

/-- Drops blanks and line breaks. -/
def dropSpace : List Char → List Char
  | '\r' :: '\n' :: s => dropSpace s
  | c :: s => if isBlank c || c == '\n' then dropSpace s else c :: s
  | [] => []

/-- Reads a text after its opening quotes; `done` holds the characters so far, last first, and
`fuel` bounds the characters read. Before its closing quotes a text over several lines may have one
or two quotes of its own, and a backslash at the end of a line takes the space after it away. -/
def readText (style : Style) (multiline : Bool) :
    (fuel : Nat) → (done : List Char) → List Char → Option (String × List Char)
  | 0, _, _ => none
  | _ + 1, _, [] => none
  | fuel + 1, done, c :: s =>
    let more := readText style multiline fuel
    let mark := style.mark
    let close (done rest : List Char) := some (String.ofList done.reverse, rest)
    if c = mark then
      if multiline then
        match s with
        | a :: b :: rest =>
          if a = mark ∧ b = mark then
            match rest with
            | d :: e :: after =>
              if d = mark ∧ e = mark then close (mark :: mark :: done) after
              else if d = mark then close (mark :: done) (e :: after)
              else close done rest
            | [d] => if d = mark then close (mark :: done) [] else close done rest
            | [] => close done []
          else more (c :: done) s
        | _ => none
      else close done s
    else if c = '\\' ∧ style = .basic then
      match readEscape s with
      | some (e, rest) => more (e :: done) rest
      | none =>
        if multiline then
          match dropBreak? (dropBlanks s) with
          | some rest => more done (dropSpace rest)
          | none => none
        else none
    else if c = '\n' then if multiline then more (c :: done) s else none
    else if c = '\r' then
      if multiline && s.head? == some '\n' then more (c :: done) s else none
    else if isForbidden c then none
    else more (c :: done) s

/-- Reads a text after its first quote: on one line, or over several lines if three quotes open
it. A line break right after those does not count. -/
def readQuoted (style : Style) (s : List Char) : Option (String × List Char) :=
  let mark := style.mark
  match s with
  | a :: b :: rest =>
    if a = mark ∧ b = mark then
      let rest := (dropBreak? rest).getD rest
      readText style true (rest.length + 1) [] rest
    else readText style false (s.length + 1) [] s
  | _ => readText style false (s.length + 1) [] s

/-- Whether a character may stand in a key without quotes. -/
def isBareKeyChar (c : Char) : Bool := c.isAlphanum || c == '_' || c == '-'

def readKeyPart : List Char → Option (String × List Char)
  | '"' :: s => readText .basic false (s.length + 1) [] s
  | '\'' :: s => readText .literal false (s.length + 1) [] s
  | s =>
    match s.span isBareKeyChar with
    | ([], _) => none
    | (name, rest) => some (String.ofList name, rest)

/-- A key: its last part, and the path before that. -/
structure Key where
  path : List String
  name : String
deriving DecidableEq, Repr

/-- The parts of a key, in order. -/
def Key.parts (k : Key) : List String := k.path ++ [k.name]

/-- Reads a key with the blanks around its parts; `done` holds the parts so far, last first, and
`fuel` bounds their number. -/
def readKeyFrom : (fuel : Nat) → (done : List String) → List Char → Option (Key × List Char)
  | 0, _, _ => none
  | fuel + 1, done, s =>
    match readKeyPart (dropBlanks s) with
    | none => none
    | some (part, rest) =>
      match dropBlanks rest with
      | '.' :: rest => readKeyFrom fuel (part :: done) rest
      | rest => some (⟨done.reverse, part⟩, rest)

def readKey (s : List Char) : Option (Key × List Char) := readKeyFrom (s.length + 1) [] s

end Retrace.Toml
