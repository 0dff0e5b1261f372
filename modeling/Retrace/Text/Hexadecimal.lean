/-!
# Hexadecimal digits

Sixteen digits, those above nine in either case of the letters.
-/

namespace Retrace

/-- The value of a hexadecimal digit. -/
def hexDigit? (c : Char) : Option Nat :=
  let n := c.toNat
  if 48 ≤ n && n < 58 then some (n - 48)
  else if 97 ≤ n && n < 103 then some (n - 87)
  else if 65 ≤ n && n < 71 then some (n - 55)
  else none

/-- The number that hexadecimal digits denote; zero if there are none. -/
def hexNumber? (cs : List Char) : Option Nat :=
  cs.foldlM (fun n c => (hexDigit? c).map (16 * n + ·)) 0

end Retrace
