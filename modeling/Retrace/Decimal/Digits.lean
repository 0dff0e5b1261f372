/-!
# Decimal digits

A digit is a number below ten, so a digit string can hold nothing else. `digits n` writes a natural
number without a leading zero and `ofDigits` reads it back (`ofDigits_digits`); both directions of
decimal text go through these two.
-/

namespace Retrace

/-- A decimal digit. -/
abbrev Digit := Fin 10

def Digit.char (d : Digit) : Char := Char.ofNat (48 + d.val)

/-- The digit a character stands for: ASCII digits only. -/
def Digit.ofChar? (c : Char) : Option Digit :=
  if h : 48 ≤ c.toNat ∧ c.toNat < 58 then some ⟨c.toNat - 48, by omega⟩ else none

/-- The value of a digit string, most significant digit first. -/
def ofDigits (ds : List Digit) : Nat := ds.foldl (fun n d => 10 * n + d.val) 0

/-- The digits of a number, most significant first: one zero for zero, else no leading zero. -/
def digits (n : Nat) : List Digit :=
  if h : n < 10 then [⟨n, h⟩]
  else digits (n / 10) ++ [⟨n % 10, Nat.mod_lt n (by decide)⟩]
termination_by n
decreasing_by omega

/-- The last `width` digits of a number, with leading zeros. -/
def paddedDigits : (width n : Nat) → List Digit
  | 0, _ => []
  | width + 1, n => paddedDigits width (n / 10) ++ [⟨n % 10, Nat.mod_lt n (by decide)⟩]

def decimalText (n : Nat) : String := String.ofList ((digits n).map Digit.char)

/-- The digits at the front of a text, and what follows them. -/
def takeDigits : List Char → List Digit × List Char
  | [] => ([], [])
  | c :: rest =>
    match Digit.ofChar? c with
    | none => ([], c :: rest)
    | some d => let (ds, rest') := takeDigits rest; (d :: ds, rest')

theorem Digit.ofChar?_char (d : Digit) : Digit.ofChar? d.char = some d := by
  revert d; decide

theorem Digit.char_ne_of_ofChar? {c : Char} (h : Digit.ofChar? c = none) (d : Digit) : d.char ≠ c := by
  rintro rfl
  exact nomatch (Digit.ofChar?_char d).symm.trans h

theorem ofDigits_concat (ds : List Digit) (d : Digit) :
    ofDigits (ds ++ [d]) = 10 * ofDigits ds + d.val := by
  simp [ofDigits, List.foldl_append]

/-- Reading the digits of a number gives the number. -/
theorem ofDigits_digits (n : Nat) : ofDigits (digits n) = n := by
  rw [digits]
  split
  · simp [ofDigits]
  · rw [ofDigits_concat, ofDigits_digits (n / 10)]
    show 10 * (n / 10) + n % 10 = n
    omega
termination_by n
decreasing_by omega

theorem digits_ne_nil (n : Nat) : digits n ≠ [] := by
  rw [digits]; split <;> simp

/-- Of several digits of a number the first is not zero. -/
theorem head_digits_ne_zero {n : Nat} (hn : n ≠ 0) : (digits n).head? ≠ some 0 := by
  rw [digits]
  split
  · intro hzero
    have hval := congrArg Fin.val (Option.some.inj hzero)
    exact hn hval
  · have hrest := head_digits_ne_zero (n := n / 10) (by omega)
    cases hds : digits (n / 10) with
    | nil => exact absurd hds (digits_ne_nil _)
    | cons d ds =>
      rw [hds] at hrest
      exact hrest
termination_by n
decreasing_by omega

theorem digits_zero : digits 0 = [0] := by
  rw [digits, dif_pos (by decide)]
  rfl

/-- A digit string is read up to its end, whatever follows, unless a digit follows. -/
theorem takeDigits_append (ds : List Digit) (rest : List Char)
    (h : ∀ c ∈ rest.head?, Digit.ofChar? c = none) :
    takeDigits (ds.map Digit.char ++ rest) = (ds, rest) := by
  induction ds with
  | nil =>
    cases rest with
    | nil => rfl
    | cons c rest => simp [takeDigits, h c rfl]
  | cons d ds ih => simp [takeDigits, Digit.ofChar?_char, ih]

end Retrace
