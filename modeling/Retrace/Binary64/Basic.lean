/-!
# Finite binary64 numbers

A finite double is `± mantissa · 2 ^ exponent`. It is kept in that form, so that every operation
is exact arithmetic on natural numbers followed by one rounding. Rounding goes to the nearest
representable number and a tie goes to the even mantissa (`ofRatio`); it fails exactly when the
rounded number is too large. A rounded number has a mantissa of 53 bits unless its exponent is the
least one, and zero keeps its sign.
-/

namespace Retrace

/-- A finite double, `± mantissa · 2 ^ exponent`. -/
structure Binary64 where
  negative : Bool
  mantissa : Nat
  exponent : Int
deriving DecidableEq, Repr

namespace Binary64

/-- The exponent of the subnormal numbers. -/
def minExponent : Int := -1074

/-- The exponent of the largest numbers. -/
def maxExponent : Int := 971

/-- The signed zeros. -/
def zero (negative : Bool) : Binary64 := ⟨negative, 0, minExponent⟩

/-- Whether a number is one of the two zeros. -/
def isZero (x : Binary64) : Bool := x.mantissa == 0

/-- The quotient rounded to a whole number; a tie goes to the even one. -/
def roundHalfEven (num den : Nat) : Nat :=
  let q := num / den
  let r := num % den
  if 2 * r < den then q
  else if den < 2 * r then q + 1
  else if q % 2 = 0 then q else q + 1

/-- Numerator and denominator of `num / den / 2 ^ e`. -/
def scaleBy (num den : Nat) (e : Int) : Nat × Nat :=
  if 0 ≤ e then (num, den * Nat.pow 2 e.toNat) else (num * Nat.pow 2 (-e).toNat, den)

/-- The exponent at which the quotient `num / den` of positive numbers has a 53-bit whole part. -/
def fullExponent (num den : Nat) : Int :=
  let k : Int := (Nat.log2 num : Int) - Nat.log2 den - 52
  let (n, d) := scaleBy num den k
  if 1 <<< 52 ≤ n / d then k else k - 1

/-- The double nearest to `± num / den`, or nothing if that is too large. -/
def ofRatio (negative : Bool) (num den : Nat) : Option Binary64 :=
  if num = 0 then some (zero negative)
  else
    let e := max (fullExponent num den) minExponent
    let (n, d) := scaleBy num den e
    let m := roundHalfEven n d
    let (m, e) := if m = 1 <<< 53 then (1 <<< 52, e + 1) else (m, e)
    if maxExponent < e then none else some ⟨negative, m, e⟩

/-- The double nearest to `± mantissa · 2 ^ exponent`. -/
def ofScaled (negative : Bool) (mantissa : Nat) (exponent : Int) : Option Binary64 :=
  if 0 ≤ exponent then ofRatio negative (mantissa * Nat.pow 2 exponent.toNat) 1
  else ofRatio negative mantissa (Nat.pow 2 (-exponent).toNat)

/-- The double nearest to a natural number. -/
def ofNat? (n : Nat) : Option Binary64 := ofRatio false n 1

def mul? (x y : Binary64) : Option Binary64 :=
  ofScaled (x.negative != y.negative) (x.mantissa * y.mantissa) (x.exponent + y.exponent)

/-- The rounded quotient; dividing by zero gives nothing. -/
def div? (x y : Binary64) : Option Binary64 :=
  if y.isZero then none
  else
    let e := x.exponent - y.exponent
    let negative := x.negative != y.negative
    if 0 ≤ e then ofRatio negative (x.mantissa * Nat.pow 2 e.toNat) y.mantissa
    else ofRatio negative x.mantissa (y.mantissa * Nat.pow 2 (-e).toNat)

end Binary64

end Retrace
