import Retrace.Binary64.Basic
/-!
# Reading a decimal in double steps

A decimal literal is read as a 64-bit significand, rounded to a double once, and then multiplied or
divided by a power of ten in double arithmetic. Digits that the significand has no room for move the
exponent (before the point) or are dropped (after it). The result is within a few units of the last
place of the literal; short literals are exact.
-/

namespace Retrace

namespace Binary64

/-- The largest significand kept. -/
def significandLimit : Nat := (1 <<< 64) - 1

/-- A significand and the power of ten it is to be multiplied by. -/
structure Significand where
  value : Nat
  exponent : Int

namespace Significand

/-- The leading digits of a whole number that fit, the rest counted by the exponent. -/
def ofWhole (n : Nat) (exponent : Int) : Significand :=
  if n ≤ significandLimit then ⟨n, exponent⟩ else ofWhole (n / 10) (exponent + 1)
termination_by n
decreasing_by simp only [significandLimit] at *; omega

/-- Appends the digits after the point, up to the first that does not fit. -/
def appendFraction (s : Significand) : List (Fin 10) → Significand
  | [] => s
  | d :: ds =>
    let value := 10 * s.value + d.val
    if value ≤ significandLimit then appendFraction ⟨value, s.exponent - 1⟩ ds else s

end Significand

/-- The power of ten as a double. -/
def powerOfTen? (k : Nat) : Option Binary64 := ofNat? (Nat.pow 10 k)

/-- Multiplies by `10 ^ e`, in steps of at most 308 decimal places. -/
def scaleTen? (x : Binary64) (e : Int) : Option Binary64 :=
  if e.natAbs ≤ 308 then do
    let p ← powerOfTen? e.natAbs
    if 0 ≤ e then x.mul? p else x.div? p
  else if x.isZero then some x
  else if 0 ≤ e then none
  else do
    let p ← powerOfTen? 308
    let y ← x.div? p
    y.scaleTen? (e + 308)
termination_by (-e).toNat
decreasing_by omega

/-- The double a literal `± whole.fraction · 10 ^ exponent` is read as; nothing if it is too large. -/
def ofLiteral? (negative : Bool) (whole : Nat) (fraction : List (Fin 10)) (exponent : Int) :
    Option Binary64 := do
  let s := (Significand.ofWhole whole 0).appendFraction fraction
  let x ← ofNat? s.value
  let y ← x.scaleTen? (s.exponent + exponent)
  some { y with negative := negative }

end Binary64

end Retrace
