import Retrace.Decimal.Digits
/-!
# Number literals

A JSON number as it is written: a sign, a whole part without leading zeros, the digits after the
point and an exponent. The whole part is kept as its value, which determines its digits, and an
absent point as the empty digit string. A literal that is written down reads back as itself.
-/

namespace Retrace.Json

/-- A number literal. -/
structure Literal where
  negative : Bool
  whole : Nat
  /-- The digits after the point; none if there is no point. -/
  fraction : List Digit
  exponent : Option Int
deriving DecidableEq, Repr

namespace Literal

/-- The literal of a whole number. -/
def ofInt (n : Int) : Literal := ⟨n < 0, n.natAbs, [], none⟩

/-- Whether the literal has neither a point nor an exponent. -/
def isWhole (l : Literal) : Bool := l.fraction.isEmpty && l.exponent.isNone

/-- The text of an exponent; its sign is always written. -/
def exponentText (e : Int) : List Char :=
  'e' :: (if e < 0 then '-' else '+') :: (digits e.natAbs).map Digit.char

def chars (l : Literal) : List Char :=
  (if l.negative then ['-'] else [])
    ++ (digits l.whole).map Digit.char
    ++ (if l.fraction.isEmpty then [] else '.' :: l.fraction.map Digit.char)
    ++ l.exponent.elim [] exponentText

/-- Reads a whole part: a lone zero, or digits that start with another one. -/
def readWhole : List Char → Option (Nat × List Char)
  | '0' :: rest =>
    match (takeDigits rest).1 with
    | [] => some (0, rest)
    | _ :: _ => none
  | s =>
    match takeDigits s with
    | ([], _) => none
    | (ds, rest) => some (ofDigits ds, rest)

/-- Reads the digits after a point, if there is a point. -/
def readFraction : List Char → Option (List Digit × List Char)
  | '.' :: rest =>
    match takeDigits rest with
    | ([], _) => none
    | (ds, rest') => some (ds, rest')
  | s => some ([], s)

/-- Reads the digits of an exponent after its sign. -/
def readExponentDigits (negative : Bool) (s : List Char) : Option (Option Int × List Char) :=
  match takeDigits s with
  | ([], _) => none
  | (ds, rest) => some (some (if negative then -(ofDigits ds : Int) else ofDigits ds), rest)

/-- Reads an exponent, if there is one. -/
def readExponent : List Char → Option (Option Int × List Char)
  | c :: rest =>
    if c = 'e' ∨ c = 'E' then
      match rest with
      | '-' :: rest' => readExponentDigits true rest'
      | '+' :: rest' => readExponentDigits false rest'
      | _ => readExponentDigits false rest
    else some (none, c :: rest)
  | [] => some (none, [])

/-- Reads a literal from the front of a text. -/
def read (s : List Char) : Option (Literal × List Char) := do
  let (negative, s) := match s with
    | '-' :: rest => (true, rest)
    | _ => (false, s)
  let (whole, s) ← readWhole s
  let (fraction, s) ← readFraction s
  let (exponent, s) ← readExponent s
  some (⟨negative, whole, fraction, exponent⟩, s)

end Literal

end Retrace.Json
