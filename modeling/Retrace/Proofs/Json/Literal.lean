import Retrace.Json.Literal
/-!
# A number literal reads back

A literal is read from the front of a text as it was written, whatever follows, unless a character
follows with which a literal could go on (`Ends`). The parts are read one after the other, each up to
where the next one begins.
-/

namespace Retrace

/-- Whether a text does not go on with a digit. -/
def NoDigit (s : List Char) : Prop := ∀ c ∈ s.head?, Digit.ofChar? c = none

theorem noDigit_cons {c : Char} (h : Digit.ofChar? c = none) (s : List Char) : NoDigit (c :: s) := by
  intro d hd
  obtain rfl := Option.some.inj hd
  exact h

namespace Json.Literal

/-- Whether a text does not go on with a character of a literal. -/
def Ends (s : List Char) : Prop :=
  ∀ c ∈ s.head?, Digit.ofChar? c = none ∧ c ≠ '.' ∧ c ≠ 'e' ∧ c ≠ 'E'

theorem Ends.noDigit {s : List Char} (h : Ends s) : NoDigit s := fun c hc => (h c hc).1

theorem readWhole_append (n : Nat) {s : List Char} (h : NoDigit s) :
    readWhole ((digits n).map Digit.char ++ s) = some (n, s) := by
  by_cases hn : n = 0
  · subst hn
    have hnone : takeDigits s = ([], s) := takeDigits_append [] s h
    rw [digits_zero]
    show readWhole ('0' :: s) = _
    simp only [readWhole, hnone]
  · have htake := takeDigits_append (digits n) s h
    have hhead := head_digits_ne_zero hn
    have hvalue := ofDigits_digits n
    generalize hds : digits n = ds at htake hhead hvalue
    cases ds with
    | nil => exact absurd hds (digits_ne_nil n)
    | cons d ds =>
      have hzero : d.char ≠ '0' := by
        intro he
        have hd : Digit.ofChar? d.char = some 0 := by
          rw [he]
          rfl
        rw [Digit.ofChar?_char] at hd
        exact hhead hd
      simp only [List.map_cons, List.cons_append] at htake ⊢
      unfold readWhole
      split
      next he => exact absurd (List.cons.inj he).1 hzero
      next =>
        rw [htake]
        simp only [hvalue]

theorem readFraction_append (fraction : List Digit) {s : List Char} (h : NoDigit s)
    (hpoint : ∀ c ∈ s.head?, c ≠ '.') :
    readFraction ((if fraction.isEmpty then [] else '.' :: fraction.map Digit.char) ++ s)
      = some (fraction, s) := by
  cases fraction with
  | nil =>
    unfold readFraction
    split
    next rest he =>
      have hs : s = '.' :: rest := he
      exact absurd rfl (hpoint '.' (by rw [hs]; rfl))
    next => rfl
  | cons d fraction =>
    have htake := takeDigits_append (d :: fraction) s h
    show readFraction ('.' :: ((d :: fraction).map Digit.char ++ s)) = _
    simp only [readFraction, htake]

theorem readExponentDigits_append (negative : Bool) (n : Nat) {s : List Char} (h : NoDigit s) :
    readExponentDigits negative ((digits n).map Digit.char ++ s)
      = some (some (if negative then -(n : Int) else n), s) := by
  have htake := takeDigits_append (digits n) s h
  have hvalue := ofDigits_digits n
  generalize hds : digits n = ds at htake hvalue
  unfold readExponentDigits
  rw [htake]
  cases ds with
  | nil => exact absurd hds (digits_ne_nil n)
  | cons d ds => simp only [hvalue]

theorem readExponent_append (exponent : Option Int) {s : List Char} (h : Ends s) :
    readExponent (exponent.elim [] exponentText ++ s) = some (exponent, s) := by
  cases exponent with
  | none =>
    cases s with
    | nil => rfl
    | cons c s =>
      obtain ⟨-, -, he, hE⟩ := h c rfl
      show readExponent (c :: s) = _
      simp only [readExponent, he, hE, or_self, if_false]
  | some e =>
    by_cases hneg : e < 0
    · have hdigits := readExponentDigits_append true e.natAbs h.noDigit
      show readExponent ('e' :: (if e < 0 then '-' else '+') :: ((digits e.natAbs).map Digit.char ++ s))
        = _
      rw [if_pos hneg]
      simp only [readExponent, true_or, if_true, hdigits]
      rw [show -(e.natAbs : Int) = e by omega]
    · have hdigits := readExponentDigits_append false e.natAbs h.noDigit
      show readExponent ('e' :: (if e < 0 then '-' else '+') :: ((digits e.natAbs).map Digit.char ++ s))
        = _
      rw [if_neg hneg]
      simp only [readExponent, true_or, if_true, hdigits]
      simp only [Bool.false_eq_true, if_false]
      rw [show (e.natAbs : Int) = e by omega]

/-- Where the exponent begins no digit and no point stands. -/
theorem head_exponent (exponent : Option Int) {s : List Char} (h : Ends s) :
    ∀ c ∈ (exponent.elim [] exponentText ++ s).head?, Digit.ofChar? c = none ∧ c ≠ '.' := by
  intro c hc
  cases exponent with
  | none => exact ⟨(h c hc).1, (h c hc).2.1⟩
  | some e =>
    obtain rfl := Option.some.inj hc
    exact ⟨by decide, by decide⟩

/-- Where the fraction begins no digit stands. -/
theorem noDigit_fraction (fraction : List Digit) {s : List Char} (h : NoDigit s) :
    NoDigit ((if fraction.isEmpty then [] else '.' :: fraction.map Digit.char) ++ s) := by
  cases fraction with
  | nil => exact h
  | cons d fraction => exact noDigit_cons (by decide) _

/-- A literal reads back as itself. -/
theorem read_append (l : Literal) {s : List Char} (h : Ends s) : read (l.chars ++ s) = some (l, s) := by
  obtain ⟨negative, whole, fraction, exponent⟩ := l
  have hexponent := readExponent_append exponent h
  have hhead := head_exponent exponent h
  have hfraction := readFraction_append fraction (fun c hc => (hhead c hc).1)
    fun c hc => (hhead c hc).2
  have hwhole := readWhole_append whole (noDigit_fraction fraction fun c hc => (hhead c hc).1)
  generalize hs' : (if fraction.isEmpty then [] else '.' :: fraction.map Digit.char)
    ++ (exponent.elim [] exponentText ++ s) = s' at hfraction hwhole
  have hrest : ∀ sign : Bool, ((readWhole ((digits whole).map Digit.char ++ s')).bind fun w =>
      (readFraction w.2).bind fun f => (readExponent f.2).bind fun e =>
        some ((⟨sign, w.1, f.1, e.1⟩ : Literal), e.2)) = some (⟨sign, whole, fraction, exponent⟩, s) := by
    intro sign
    simp only [hwhole, hfraction, hexponent, Option.bind_some]
  have hchars : Literal.chars ⟨negative, whole, fraction, exponent⟩ ++ s
      = (if negative then ['-'] else []) ++ ((digits whole).map Digit.char ++ s') := by
    rw [← hs']
    simp only [Literal.chars, List.append_assoc]
  rw [hchars]
  cases negative with
  | true => exact hrest true
  | false =>
    -- a literal without a sign begins with a digit
    have hunsigned := hrest false
    cases hds : digits whole with
    | nil => exact absurd hds (digits_ne_nil whole)
    | cons d ds =>
      have hminus : d.char ≠ '-' := Digit.char_ne_of_ofChar? (by decide) d
      rw [hds] at hunsigned
      rw [← hunsigned]
      unfold read
      simp [hminus]

end Json.Literal

end Retrace
