import Retrace.Decimal.Digits
import Retrace.Text.Blank
/-!
# Points in time

A timestamp is a date and a time of day in UTC. Reading follows RFC 3339 with some leeway: a blank or
a small `t` may stand between date and time, blanks may stand around the parts, and the offset may
be `Z`, `UTC` or signed hours and minutes. The time is moved to UTC by its offset. Writing ends in
`Z` and gives three, six or nine places of a second, as many as are needed.

Dates are counted in days from 1970-01-01 in the Gregorian calendar (`daysOfDate`, `dateOfDays`).
-/

namespace Retrace

/-- A point in time, in UTC. -/
structure Timestamp where
  /-- Days since 1970-01-01. -/
  day : Int
  /-- Seconds since midnight. -/
  second : Nat
  /-- Nanoseconds; a leap second counts on beyond the second before it. -/
  nanosecond : Nat
deriving DecidableEq, Repr

namespace Timestamp

/-- The days from 1970-01-01 to a date; years are counted from March, so that a leap day is the last
day of its year. -/
def daysOfDate (year : Int) (month day : Nat) : Int :=
  let y := if month ≤ 2 then year - 1 else year
  let era := y.fdiv 400
  let yearOfEra := y - era * 400
  let m : Int := if month ≤ 2 then month + 9 else month - 3
  let dayOfYear := (153 * m + 2) / 5 + day - 1
  let dayOfEra := yearOfEra * 365 + yearOfEra / 4 - yearOfEra / 100 + dayOfYear
  era * 146097 + dayOfEra - 719468

/-- The year, month and day of a day. -/
def dateOfDays (days : Int) : Int × Nat × Nat :=
  let z := days + 719468
  let era := z.fdiv 146097
  let dayOfEra := z - era * 146097
  let yearOfEra := (dayOfEra - dayOfEra / 1460 + dayOfEra / 36524 - dayOfEra / 146096) / 365
  let dayOfYear := dayOfEra - (365 * yearOfEra + yearOfEra / 4 - yearOfEra / 100)
  let m := (5 * dayOfYear + 2) / 153
  let day := dayOfYear - (153 * m + 2) / 5 + 1
  let month := if m < 10 then m + 3 else m - 9
  let year := yearOfEra + era * 400 + (if month ≤ 2 then 1 else 0)
  (year, month.toNat, day.toNat)

/-- Whether a year of the Gregorian calendar is a leap year. -/
def isLeapYear (year : Int) : Bool := year % 4 = 0 && (year % 100 ≠ 0 || year % 400 = 0)

/-- The days of a month. -/
def monthLength (year : Int) (month : Nat) : Nat :=
  if month = 2 then if isLeapYear year then 29 else 28
  else if month = 4 || month = 6 || month = 9 || month = 11 then 30 else 31

/-- The largest year, counted from 1 backwards as well. -/
def yearLimit : Int := 262142

/-- Reads one to `width` digits, after blanks. -/
def readNumber (width : Nat) (s : List Char) : Option (Nat × List Char) :=
  let s := dropWhiteSpace s
  match (takeDigits (s.take width)).1 with
  | [] => none
  | ds => some (ofDigits ds, s.drop ds.length)

/-- Reads a year: four digits at most, or a sign and any number of digits. -/
def readYear (s : List Char) : Option (Int × List Char) :=
  match dropWhiteSpace s with
  | '-' :: rest =>
    match takeDigits rest with
    | ([], _) => none
    | (ds, rest) => some (-(ofDigits ds : Int), rest)
  | '+' :: rest =>
    match takeDigits rest with
    | ([], _) => none
    | (ds, rest) => some (ofDigits ds, rest)
  | s => (readNumber 4 s).map fun r => (r.1, r.2)

/-- Reads a mark, blanks allowed before it. -/
def readMark (mark : Char) (s : List Char) : Option (List Char) :=
  match dropWhiteSpace s with
  | c :: rest => if c = mark then some rest else none
  | [] => none

/-- Reads the places of a second after the point, as nanoseconds; places beyond the ninth are
dropped. -/
def readNanoseconds : List Char → Option (Nat × List Char)
  | '.' :: rest =>
    match takeDigits rest with
    | ([], _) => none
    | (ds, rest) =>
      let kept := ds.take 9
      some (ofDigits kept * Nat.pow 10 (9 - kept.length), rest)
  | s => some (0, s)

def readTwoDigits : List Char → Option (Nat × List Char)
  | a :: b :: rest =>
    match Digit.ofChar? a, Digit.ofChar? b with
    | some a, some b => some (10 * a.val + b.val, rest)
    | _, _ => none
  | _ => none

/-- Reads an offset from UTC, in seconds: `Z`, `UTC`, or a sign with hours and minutes. -/
def readOffset : List Char → Option (Int × List Char)
  | 'Z' :: rest => some (0, rest)
  | 'z' :: rest => some (0, rest)
  | s =>
    match s with
    | u :: t :: c :: rest =>
      if u.toUpper = 'U' ∧ t.toUpper = 'T' ∧ c.toUpper = 'C' then some (0, rest)
      else do
        let negative ← match u with
          | '+' => some false
          | '-' => some true
          | c => if c.toNat = 0x2212 then some true else none
        let (hours, s) ← readTwoDigits (t :: c :: rest)
        let s := s.dropWhile fun c => c == ':' || isWhiteSpace c
        let (minutes, s) ← readTwoDigits s
        if minutes < 60 ∧ hours < 24 then
          let seconds : Int := hours * 3600 + minutes * 60
          some (if negative then -seconds else seconds, s)
        else none
    | _ => none

/-- Reads a timestamp; nothing but blanks may follow it. -/
def parse? (text : String) : Option Timestamp := do
  let (year, s) ← readYear text.toList
  let s ← readMark '-' s
  let (month, s) ← readNumber 2 s
  let s ← readMark '-' s
  let (day, s) ← readNumber 2 s
  let s ← match s with
    | 't' :: rest => some rest
    | 'T' :: rest => some rest
    | ' ' :: rest => some rest
    | _ => none
  let (hour, s) ← readNumber 2 s
  let s ← readMark ':' s
  let (minute, s) ← readNumber 2 s
  let s ← readMark ':' s
  let (second, s) ← readNumber 2 s
  let (nanosecond, s) ← readNanoseconds s
  let (offset, s) ← readOffset (dropWhiteSpace s)
  if dropWhiteSpace s ≠ [] then none
  if year.natAbs > yearLimit.natAbs ∨ month < 1 ∨ month > 12 ∨ day < 1 ∨ day > monthLength year month then
    none
  if hour > 23 ∨ minute > 59 ∨ second > 60 then none
  let leap := second = 60
  let second := if leap then 59 else second
  let nanosecond := if leap then nanosecond + 1000000000 else nanosecond
  let ofDay : Int := hour * 3600 + minute * 60 + second - offset
  some ⟨daysOfDate year month day + ofDay.fdiv 86400, (ofDay.fmod 86400).toNat, nanosecond⟩

/-- A number in at least `width` digits. -/
def padded (width n : Nat) : String :=
  let text := decimalText n
  String.ofList (List.replicate (width - text.length) '0') ++ text

/-- The places of a second, three, six or nine of them, none if they are all zero. -/
def nanosecondText (n : Nat) : String :=
  if n = 0 then ""
  else if n % 1000000 = 0 then "." ++ padded 3 (n / 1000000)
  else if n % 1000 = 0 then "." ++ padded 6 (n / 1000)
  else "." ++ padded 9 n

/-- A year in four digits; one outside of those has a sign. -/
def yearText (year : Int) : String :=
  if 0 ≤ year ∧ year ≤ 9999 then padded 4 year.toNat
  else (if year < 0 then "-" else "+") ++ padded (if year < 0 then 4 else 5) year.natAbs

def text (t : Timestamp) : String :=
  let (year, month, day) := dateOfDays t.day
  let second := t.second % 60 + t.nanosecond / 1000000000
  yearText year ++ "-" ++ padded 2 month ++ "-" ++ padded 2 day ++ "T"
    ++ padded 2 (t.second / 3600) ++ ":" ++ padded 2 (t.second / 60 % 60) ++ ":" ++ padded 2 second
    ++ nanosecondText (t.nanosecond % 1000000000) ++ "Z"

end Timestamp

end Retrace
