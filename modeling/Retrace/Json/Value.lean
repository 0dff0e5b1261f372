import Retrace.Json.Literal
import Retrace.Binary64.Shortest
import Retrace.Binary64.Scaled
/-!
# JSON values

A value is what a document means: an object holds each key once, its members sorted by key, and a
number is either an integer of 64 bits or a double. A literal without point or exponent is an
integer where it fits; `-0` and every other literal is a double, and a literal too large for a
double denotes no number (`Literal.number?`).
-/

namespace Retrace.Json

/-- A number: an integer between `-2 ^ 63` and `2 ^ 64 - 1`, or a finite double. -/
inductive Number where
  | int (n : Int)
  | double (x : Binary64)
deriving DecidableEq, Repr

/-- A JSON value. -/
inductive Value where
  | null
  | bool (b : Bool)
  | number (n : Number)
  | string (s : String)
  | array (items : List Value)
  | object (members : List (String × Value))

/-- The number a literal denotes, unless it is too large. -/
def Literal.number? (l : Literal) : Option Number :=
  if l.isWhole && !l.negative && l.whole < 1 <<< 64 then some (.int l.whole)
  else if l.isWhole && l.negative && 0 < l.whole && l.whole ≤ 1 <<< 63 then some (.int (-l.whole))
  else (Binary64.ofLiteral? l.negative l.whole l.fraction (l.exponent.getD 0)).map .double

/-- How a double is written: with the fewest digits that read back. If its leading digit stands
between `10 ^ -5` and `10 ^ 15` it is written out, with at least one digit after the point;
otherwise with one digit before the point and an exponent. -/
def doubleLiteral (x : Binary64) : Literal :=
  if x.isZero then ⟨x.negative, 0, [0], none⟩
  else
    let d := x.shortest
    let ds := digits d.digits
    let leading := d.exponent + ds.length - 1
    if -5 ≤ leading ∧ leading ≤ 15 then
      if 0 ≤ d.exponent then ⟨x.negative, d.digits * Nat.pow 10 d.exponent.toNat, [0], none⟩
      else
        let places := (-d.exponent).toNat
        ⟨x.negative, d.digits / Nat.pow 10 places, paddedDigits places (d.digits % Nat.pow 10 places), none⟩
    else ⟨x.negative, ofDigits (ds.take 1), ds.drop 1, some leading⟩

/-- The literal a number is written as. -/
def Number.literal : Number → Literal
  | .int n => .ofInt n
  | .double x => doubleLiteral x

namespace Value

def nat (n : Nat) : Value := .number (.int n)

/-- Sets a member of an object: members stay sorted by key, and the new value replaces an old one of
the same key. -/
def setMember (key : String) (value : Value) : List (String × Value) → List (String × Value)
  | [] => [(key, value)]
  | (k, v) :: rest =>
    if key < k then (key, value) :: (k, v) :: rest
    else if key = k then (key, value) :: rest
    else (k, v) :: setMember key value rest

/-- The object with the given members, a later one replacing an earlier one of the same key. -/
def ofMembers (members : List (String × Value)) : Value :=
  .object (members.foldl (fun done m => setMember m.1 m.2 done) [])

end Value

end Retrace.Json
