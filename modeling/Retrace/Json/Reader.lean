import Retrace.Json.Tree
import Retrace.Text.Hexadecimal
/-!
# Reading JSON text

A text is cut into tokens (`lex`), and the tokens are assembled into a tree (`assemble`) with a stack
of the arrays and objects that are still open, so nesting costs no recursion. The grammar is the
strict one: no comments, no comma before a closing bracket, no control characters in strings, and
nothing but blanks around the one value.
-/

namespace Retrace.Json

/-- The blanks allowed between tokens. -/
def isBlank (c : Char) : Bool := c == ' ' || c == '\n' || c == '\t' || c == '\r'

/-- The character of a one-letter escape. -/
def unescape? : Char → Option Char
  | '"' => some '"'
  | '\\' => some '\\'
  | '/' => some '/'
  | 'b' => some (Char.ofNat 8)
  | 'f' => some (Char.ofNat 12)
  | 'n' => some '\n'
  | 'r' => some '\r'
  | 't' => some '\t'
  | _ => none

/-- Whether a code is the first half of a surrogate pair. -/
def isHighHalf (n : Nat) : Bool := 0xD800 ≤ n && n ≤ 0xDBFF

/-- Whether a code is the second half of a surrogate pair. -/
def isLowHalf (n : Nat) : Bool := 0xDC00 ≤ n && n ≤ 0xDFFF

/-- The character of a surrogate pair. -/
def pairChar (high low : Nat) : Char :=
  Char.ofNat (0x10000 + (high - 0xD800) * 0x400 + (low - 0xDC00))

/-- The text of a string literal so far, its last character first. -/
structure Draft where
  /-- The characters, or nothing once half of a surrogate pair was met that has no other half. -/
  chars : Option (List Char)
  /-- The first half of a pair, if the text ends in one. -/
  high : Option Nat

namespace Draft

/-- No text. -/
def empty : Draft := ⟨some [], none⟩

/-- The characters, if no half of a pair stands alone. -/
def settled (p : Draft) : Option (List Char) := if p.high.isSome then none else p.chars

/-- Appends a character. -/
def push (p : Draft) (c : Char) : Draft := ⟨p.settled.map (c :: ·), none⟩

/-- Appends what an escape with a code stands for. -/
def pushCode (p : Draft) (n : Nat) : Draft :=
  if isLowHalf n then ⟨p.high.bind fun h => p.chars.map (pairChar h n :: ·), none⟩
  else if isHighHalf n then ⟨p.settled, some n⟩
  else p.push (Char.ofNat n)

def text (p : Draft) : Option String := p.settled.map fun cs => String.ofList cs.reverse

end Draft

/-- Reads a string literal after its opening quote. -/
def readString : (done : Draft) → List Char → Option (Option String × List Char)
  | _, [] => none
  | done, '"' :: rest => some (done.text, rest)
  | done, '\\' :: 'u' :: a :: b :: c :: d :: rest =>
    match hexNumber? [a, b, c, d] with
    | some n => readString (done.pushCode n) rest
    | none => none
  | done, '\\' :: e :: rest =>
    match unescape? e with
    | some c => readString (done.push c) rest
    | none => none
  | done, c :: rest =>
    if c.toNat < 32 ∨ c = '\\' then none else readString (done.push c) rest

/-- Reads one token from the front of a text. -/
def readToken : List Char → Option (Token × List Char)
  | '[' :: rest => some (.openBracket, rest)
  | ']' :: rest => some (.closeBracket, rest)
  | '\x7b' :: rest => some (.openBrace, rest)
  | '\x7d' :: rest => some (.closeBrace, rest)
  | ',' :: rest => some (.comma, rest)
  | ':' :: rest => some (.colon, rest)
  | '"' :: rest => (readString .empty rest).map fun r => (.string r.1, r.2)
  | 'n' :: 'u' :: 'l' :: 'l' :: rest => some (.null, rest)
  | 't' :: 'r' :: 'u' :: 'e' :: rest => some (.bool true, rest)
  | 'f' :: 'a' :: 'l' :: 's' :: 'e' :: rest => some (.bool false, rest)
  | s => (Literal.read s).map fun r => (.number r.1, r.2)

/-- Cuts a text into tokens; `done` holds those already read, last first, and `fuel` bounds the
characters read. -/
def lexFrom : (fuel : Nat) → (done : List Token) → List Char → Option (List Token)
  | _, done, [] => some done.reverse
  | 0, _, _ :: _ => none
  | fuel + 1, done, c :: rest =>
    if isBlank c then lexFrom fuel done rest
    else
      match readToken (c :: rest) with
      | some (t, rest') => lexFrom fuel (t :: done) rest'
      | none => none

/-- The tokens of a text. -/
def lex (s : List Char) : Option (List Token) := lexFrom s.length [] s

/-- An array or object that is still open, its parts so far last first. -/
inductive Frame where
  | array (items : List Tree)
  /-- The object waits for the value of `key`. -/
  | object (members : List (Option String × Tree)) (key : Option String)

/-- Where the assembly stands: before a value, or after one. -/
inductive Stage where
  | before (outer : List Frame)
  | after (t : Tree) (outer : List Frame)

/-- Assembles tokens into a tree. -/
def assemble : Stage → List Token → Option Tree
  | .after t [], [] => some t
  | .after t (.array items :: outer), .comma :: ts => assemble (.before (.array (t :: items) :: outer)) ts
  | .after t (.array items :: outer), .closeBracket :: ts =>
    assemble (.after (.array (t :: items).reverse) outer) ts
  | .after t (.object members key :: outer), .comma :: .string k :: .colon :: ts =>
    assemble (.before (.object ((key, t) :: members) k :: outer)) ts
  | .after t (.object members key :: outer), .closeBrace :: ts =>
    assemble (.after (.object ((key, t) :: members).reverse) outer) ts
  | .before outer, .null :: ts => assemble (.after .null outer) ts
  | .before outer, .bool b :: ts => assemble (.after (.bool b) outer) ts
  | .before outer, .number n :: ts => assemble (.after (.number n) outer) ts
  | .before outer, .string s :: ts => assemble (.after (.string s) outer) ts
  | .before outer, .openBracket :: .closeBracket :: ts => assemble (.after (.array []) outer) ts
  | .before outer, .openBracket :: ts => assemble (.before (.array [] :: outer)) ts
  | .before outer, .openBrace :: .closeBrace :: ts => assemble (.after (.object []) outer) ts
  | .before outer, .openBrace :: .string k :: .colon :: ts =>
    assemble (.before (.object [] k :: outer)) ts
  | _, _ => none

/-- The tree a text spells, if it is JSON. -/
def Tree.parse? (s : String) : Option Tree := do
  let tokens ← lex s.toList
  assemble (.before []) tokens

/-- What reading reports of a text that is not JSON, or not the document asked for. -/
def malformed : String := "malformed JSON document"

end Retrace.Json
