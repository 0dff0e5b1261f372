import Retrace.Toml.Table
import Retrace.Text.Hexadecimal
import Retrace.Timestamp
import Retrace.Binary64.Basic
/-!
# TOML scalars without quotes

A truth value, an integer, a float, or a date and time. Each is recognised as a whole run of
characters (`scalar?`). Digits may be grouped by single underscores (`ungroup`), and a decimal number
has no leading zero. A number too large to be held at all is refused here, whether or not anyone asks
for it: integers have 128 bits, floats are doubles.
-/

namespace Retrace.Toml

/-- The characters that scalars are made of. -/
def isScalarChar (c : Char) : Bool :=
  c.isAlphanum || c == '_' || c == '+' || c == '-' || c == '.' || c == ':'

/-- Digits with the underscores between them taken out; nothing unless each underscore stands between
two digits. -/
def ungroup (digit? : Char → Option Nat) : List Char → Option (List Nat)
  | [] => none
  | [c] => (digit? c).map fun d => [d]
  | c :: '_' :: rest =>
    match digit? c, ungroup digit? rest with
    | some d, some ds => some (d :: ds)
    | _, _ => none
  | c :: c' :: rest =>
    match digit? c, ungroup digit? (c' :: rest) with
    | some d, some ds => some (d :: ds)
    | _, _ => none

/-- The value of a digit in a base of at most sixteen. -/
def digitIn? (base : Nat) (c : Char) : Option Nat := (hexDigit? c).filter (· < base)

/-- The number that digits denote in a base. -/
def numberIn (base : Nat) (ds : List Nat) : Nat := ds.foldl (fun n d => base * n + d) 0

/-- A number in a base other than ten. -/
def unsigned? (base : Nat) (s : List Char) : Option Nat :=
  (ungroup (digitIn? base) s).map (numberIn base)

/-- The digits of a decimal number without a leading zero. -/
def decimalDigits? (s : List Char) : Option (List Nat) :=
  match ungroup (digitIn? 10) s with
  | some (0 :: _ :: _) => none
  | ds => ds

/-- A sign, and what follows it. -/
def splitSign : List Char → Bool × List Char
  | '-' :: rest => (true, rest)
  | '+' :: rest => (false, rest)
  | s => (false, s)

/-- Reads a run of characters as an integer. -/
def integer? (s : List Char) : Option Int :=
  match s with
  | '0' :: 'x' :: ds => (unsigned? 16 ds).map Int.ofNat
  | '0' :: 'o' :: ds => (unsigned? 8 ds).map Int.ofNat
  | '0' :: 'b' :: ds => (unsigned? 2 ds).map Int.ofNat
  | _ =>
    let (negative, ds) := splitSign s
    (decimalDigits? ds).map fun ds =>
      if negative then -(numberIn 10 ds : Int) else (numberIn 10 ds : Int)

/-- Whether an integer can be held. -/
def isHeld (n : Int) : Bool := -(1 <<< 127 : Nat) ≤ n && n < (1 <<< 128 : Nat)

/-- Whether `digits · 10 ^ exponent` rounds to a finite double. -/
def isFinite (digits : List Nat) (exponent : Int) : Bool :=
  let n := numberIn 10 digits
  let order := digits.length + exponent
  if n = 0 || order < 300 then true
  else if (digits.dropWhile (· == 0)).length + exponent > 310 then false
  else
    let (num, den) :=
      if 0 ≤ exponent then (n * Nat.pow 10 exponent.toNat, 1) else (n, Nat.pow 10 (-exponent).toNat)
    (Binary64.ofRatio false num den).isSome

/-- Whether a character marks an exponent. -/
def isExponentMark (c : Char) : Bool := c == 'e' || c == 'E'

/-- The exponent of a float; none is zero. -/
def exponent? : List Char → Option Int
  | [] => some 0
  | _ :: s =>
    let (negative, ds) := splitSign s
    (ungroup (digitIn? 10) ds).map fun ds =>
      if negative then -(numberIn 10 ds : Int) else (numberIn 10 ds : Int)

/-- Whether a run of characters is a finite float, with a point or an exponent or both. -/
def isFiniteFloat (s : List Char) : Bool :=
  let (whole, rest) := (splitSign s).2.span fun c => c != '.' && !isExponentMark c
  let parts : Option (List Nat × List Nat × Int) :=
    match rest with
    | [] => none
    | '.' :: rest =>
      let (fraction, rest) := rest.span fun c => !isExponentMark c
      match decimalDigits? whole, ungroup (digitIn? 10) fraction, exponent? rest with
      | some w, some f, some e => some (w, f, e)
      | _, _, _ => none
    | rest =>
      match decimalDigits? whole, exponent? rest with
      | some w, some e => some (w, [], e)
      | _, _ => none
  match parts with
  | some (w, f, e) => isFinite (w ++ f) (e - f.length)
  | none => false

/-- Whether a run of characters is a float. -/
def isFloat (s : List Char) : Bool :=
  let unsignedPart := (splitSign s).2
  unsignedPart == ['i', 'n', 'f'] || unsignedPart == ['n', 'a', 'n'] || isFiniteFloat s

/-- Recognises a date and gives what follows it. -/
def readDate (s : List Char) : Option (List Char) := do
  let (century, s) ← Timestamp.readTwoDigits s
  let (year, s) ← Timestamp.readTwoDigits s
  match s with
  | '-' :: s =>
    let (month, s) ← Timestamp.readTwoDigits s
    match s with
    | '-' :: s =>
      let (day, s) ← Timestamp.readTwoDigits s
      let year : Int := 100 * century + year
      if 1 ≤ month ∧ month ≤ 12 ∧ 1 ≤ day ∧ day ≤ Timestamp.monthLength year month then some s
      else none
    | _ => none
  | _ => none

/-- Recognises hours and minutes. -/
def readHourMinute (s : List Char) : Option (List Char) := do
  let (hour, s) ← Timestamp.readTwoDigits s
  match s with
  | ':' :: s =>
    let (minute, s) ← Timestamp.readTwoDigits s
    if hour ≤ 23 ∧ minute ≤ 59 then some s else none
  | _ => none

/-- Recognises a time of day; the seconds and their fraction may be missing. -/
def readTime (s : List Char) : Option (List Char) := do
  let s ← readHourMinute s
  match s with
  | ':' :: s =>
    let (second, s) ← Timestamp.readTwoDigits s
    if second > 60 then none
    match s with
    | '.' :: s =>
      match takeDigits s with
      | ([], _) => none
      | (_, s) => some s
    | s => some s
  | s => some s

/-- Whether a text is an offset from UTC, or empty. -/
def isOffset : List Char → Bool
  | [] => true
  | ['Z'] => true
  | ['z'] => true
  | '+' :: s => readHourMinute s == some []
  | '-' :: s => readHourMinute s == some []
  | _ => false

/-- Whether a text is a date, a time of day, or a date and a time, which may have an offset. -/
def isDateTime (s : List Char) : Bool :=
  match readDate s with
  | none => readTime s == some []
  | some [] => true
  | some (c :: rest) =>
    (c == 'T' || c == 't' || c == ' ') && ((readTime rest).map isOffset).getD false

/-- The scalar that a run of characters spells. -/
def scalar? (s : List Char) : Option Value :=
  if s = ['t', 'r', 'u', 'e'] then some (.boolean true)
  else if s = ['f', 'a', 'l', 's', 'e'] then some (.boolean false)
  else
    match integer? s with
    | some n => if isHeld n then some (.integer n) else none
    | none =>
      if isFloat s then some (.float (String.ofList s))
      else if isDateTime s then some (.dateTime (String.ofList s))
      else none

/-- Reads a scalar from the front of a text. A date and a time may be parted by one blank. -/
def readScalar (s : List Char) : Option (Value × List Char) :=
  let (run, rest) := s.span isScalarChar
  match rest with
  | ' ' :: d :: more =>
    if readDate run == some [] && d.isDigit then
      let (time, rest) := (d :: more).span isScalarChar
      (scalar? (run ++ ' ' :: time)).map (·, rest)
    else (scalar? run).map (·, rest)
  | _ => (scalar? run).map (·, rest)

end Retrace.Toml
