import Retrace.Binary64.Basic
/-!
# The shortest decimal that reads back

The reals that round to a double form an interval around it, closed if its mantissa is even. For
one, two, … seventeen significant digits, `shortest` tests the two neighbours of the number on the
grid of decimals with that many digits; the first grid with a neighbour in the interval wins, of
two neighbours the nearer, and of two equally near ones the one whose last digit is even. If any
decimal of a grid lies in the interval, so does a neighbour of the number, so no shorter decimal
reads back.

All comparisons are of exact fractions.
-/

namespace Retrace

/-- The number `digits · 10 ^ exponent`. -/
structure Decimal where
  digits : Nat
  exponent : Int
deriving DecidableEq, Repr

namespace Decimal

/-- The floor of the decimal logarithm of a positive number; `0` for zero. -/
def log10 (n : Nat) : Nat := if n < 10 then 0 else log10 (n / 10) + 1
termination_by n
decreasing_by omega

/-- The same number with no trailing zero among its digits. -/
def trim (d : Decimal) : Decimal :=
  if h : d.digits ≠ 0 ∧ d.digits % 10 = 0 then trim ⟨d.digits / 10, d.exponent + 1⟩ else d
termination_by d.digits
decreasing_by all_goals omega

end Decimal

/-- A positive fraction. -/
structure Fraction where
  num : Nat
  den : Nat

namespace Fraction

/-- `k · 2 ^ e` as a fraction. -/
def scaled (k : Nat) (e : Int) : Fraction :=
  if 0 ≤ e then ⟨k * Nat.pow 2 e.toNat, 1⟩ else ⟨k, Nat.pow 2 (-e).toNat⟩

/-- `k · 10 ^ g` as a fraction. -/
def onGrid (k : Nat) (g : Int) : Fraction :=
  if 0 ≤ g then ⟨k * Nat.pow 10 g.toNat, 1⟩ else ⟨k, Nat.pow 10 (-g).toNat⟩

/-- The order of fractions, by cross-multiplying. -/
def lt (a b : Fraction) : Bool := a.num * b.den < b.num * a.den

/-- The order of fractions, equal ones included. -/
def le (a b : Fraction) : Bool := a.num * b.den ≤ b.num * a.den

/-- The larger less the smaller, `0` if the first is not the larger. -/
def sub (a b : Fraction) : Fraction := ⟨a.num * b.den - b.num * a.den, a.den * b.den⟩

/-- The greatest `k` with `k · 10 ^ g` not above the fraction. -/
def floorOn (a : Fraction) (g : Int) : Nat :=
  if 0 ≤ g then a.num / (a.den * Nat.pow 10 g.toNat) else a.num * Nat.pow 10 (-g).toNat / a.den

/-- The power of ten of the leading digit of a positive fraction. -/
def leadingExponent (a : Fraction) : Int :=
  if a.den ≤ a.num then Decimal.log10 (a.num / a.den)
  else
    let j := Decimal.log10 (a.den / a.num)
    if a.den ≤ a.num * Nat.pow 10 j then -(j : Int) else -(j : Int) - 1

end Fraction

namespace Binary64

/-- The number itself, without its sign. -/
def magnitude (x : Binary64) : Fraction := .scaled x.mantissa x.exponent

/-- The lower end of the interval of reals that round to the number. The gap below a power of two is
half the gap above it. -/
def lowerEnd (x : Binary64) : Fraction :=
  if x.mantissa = 1 <<< 52 ∧ minExponent < x.exponent then .scaled (4 * x.mantissa - 1) (x.exponent - 2)
  else .scaled (2 * x.mantissa - 1) (x.exponent - 1)

/-- The upper end of that interval. -/
def upperEnd (x : Binary64) : Fraction := .scaled (2 * x.mantissa + 1) (x.exponent - 1)

/-- Whether a positive real rounds to the number: the ends do if the mantissa is even. -/
def roundsTo (x : Binary64) (a : Fraction) : Bool :=
  if x.mantissa % 2 = 0 then x.lowerEnd.le a && a.le x.upperEnd
  else x.lowerEnd.lt a && a.lt x.upperEnd

/-- The decimal of the grid of `10 ^ g` that reads back and is nearest to the number, if there is
one. -/
def nearestOn? (x : Binary64) (g : Int) : Option Decimal :=
  let below := x.magnitude.floorOn g
  let above := below + 1
  match x.roundsTo (.onGrid below g), x.roundsTo (.onGrid above g) with
  | false, false => none
  | true, false => some ⟨below, g⟩
  | false, true => some ⟨above, g⟩
  | true, true =>
    let down := x.magnitude.sub (.onGrid below g)
    let up := (Fraction.onGrid above g).sub x.magnitude
    if down.lt up || (!up.lt down && below % 2 == 0) then some ⟨below, g⟩ else some ⟨above, g⟩

/-- The decimal with the fewest digits that reads back as the number, without its sign. -/
def shortest (x : Binary64) : Decimal :=
  if x.isZero then ⟨0, 0⟩
  else
    let top := x.magnitude.leadingExponent
    let grid (count : Nat) : Int := top - count
    match (List.range 17).findSome? fun count => x.nearestOn? (grid count) with
    | some d => d.trim
    | none => (Decimal.mk (x.magnitude.floorOn (grid 16)) (grid 16)).trim

end Binary64

end Retrace
