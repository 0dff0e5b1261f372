import Retrace.Json.Reader
import Retrace.Proofs.Json.Literal
/-!
# A text is cut into the tokens it spells

`Spells` says of a text which tokens it is made of, with blanks between them as its writer likes, and
with something after each number that ends it. The tokens of such a text are found again, however it is
set (`lex_of_spells`). The heart of it is that each token is read from the front of a text as it was
written, whatever follows (`readToken_chars`); in a string literal that holds character by character
(`readString_escape`).
-/

namespace Retrace.Json

/-! ## String literals -/

/-- The code of a control character stands in its escape. -/
theorem hexNumber?_control {n : Nat} (h : n < 32) :
    hexNumber? ['0', '0', if n < 16 then '0' else '1', Nat.digitChar (n % 16)] = some n := by
  have hall : ∀ n < 32, hexNumber? ['0', '0', if n < 16 then '0' else '1', Nat.digitChar (n % 16)]
      = some n := by decide
  exact hall n h

/-- A code that is no half of a pair stands for its character. -/
theorem Draft.pushCode_control {n : Nat} (h : n < 32) (p : Draft) :
    p.pushCode n = p.push (Char.ofNat n) := by
  have hlow : isLowHalf n = false := by
    unfold isLowHalf
    simp
    omega
  have hhigh : isHighHalf n = false := by
    unfold isHighHalf
    simp
    omega
  unfold pushCode
  rw [hlow, hhigh]
  rfl

/-- A character reads back from the way it stands in a string literal. -/
theorem readString_escape (done : Draft) (c : Char) (rest : List Char) :
    readString done (escape c ++ rest) = readString (done.push c) rest := by
  unfold escape
  split
  -- five characters have an escape of their own
  iterate 5 next => simp [readString, unescape?]
  next hquote hbackslash _ _ _ =>
    have hchar : Char.ofNat c.toNat = c := Char.ofNat_toNat c
    split
    next h8 =>
      have hc : c = Char.ofNat 8 := by rw [← hchar, h8]
      rw [hc]
      simp [readString, unescape?]
    next =>
      split
      next h12 =>
        have hc : c = Char.ofNat 12 := by rw [← hchar, h12]
        rw [hc]
        simp [readString, unescape?]
      next =>
        split
        -- the other control characters are written by their code
        next hcontrol =>
          show readString done ('\\' :: 'u' :: '0' :: '0' :: _ :: _ :: rest) = _
          simp only [readString, hexNumber?_control hcontrol, Draft.pushCode_control hcontrol, hchar]
        -- what is left stands for itself, and is neither the closing quote nor the start of an escape
        next hplain =>
          show readString done (c :: rest) = _
          have hno : ¬ (c.toNat < 32 ∨ c = '\\') := not_or.mpr ⟨hplain, hbackslash⟩
          conv => lhs; unfold readString
          split
          next he => exact nomatch he
          next he => exact absurd (List.cons.inj he).1 hquote
          next he => exact absurd (List.cons.inj he).1 hbackslash
          next he => exact absurd (List.cons.inj he).1 hbackslash
          next c' rest' _ _ _ he =>
            obtain ⟨rfl, rfl⟩ := List.cons.inj he
            exact if_neg hno

/-- So does a whole text, up to the closing quote. The induction is on its characters. -/
theorem readString_text (acc cs : List Char) (rest : List Char) :
    readString ⟨some acc, none⟩ (cs.flatMap escape ++ '"' :: rest)
      = some (some (String.ofList (acc.reverse ++ cs)), rest) := by
  induction cs generalizing acc with
  | nil =>
    show readString ⟨some acc, none⟩ ('"' :: rest) = _
    simp [readString, Draft.text, Draft.settled]
  | cons c cs ih =>
    have hpush : Draft.push ⟨some acc, none⟩ c = ⟨some (c :: acc), none⟩ := rfl
    rw [List.flatMap_cons, List.append_assoc, readString_escape, hpush, ih]
    simp

theorem readString_quoted (s : Option String) (rest : List Char) :
    (quoted s ++ rest).head? = some '"' ∧
      readString .empty ((quoted s ++ rest).drop 1) = some (s, rest) := by
  cases s with
  | none =>
    refine ⟨rfl, ?_⟩
    show readString .empty ('\\' :: 'u' :: 'd' :: '8' :: '0' :: '0' :: '"' :: rest) = _
    have hcode : hexNumber? ['d', '8', '0', '0'] = some 0xD800 := by decide
    simp [readString, hcode, Draft.pushCode, isLowHalf, isHighHalf, Draft.text, Draft.settled]
  | some s =>
    refine ⟨rfl, ?_⟩
    show readString .empty ((s.toList.flatMap escape ++ ['"']) ++ rest) = _
    rw [List.append_assoc]
    exact (readString_text [] s.toList rest).trans (by simp)

/-! ## Tokens -/

/-- Whether a text ends a token that stands before it. -/
def Token.Ends (t : Token) (s : List Char) : Prop := ∀ n, t = .number n → Literal.Ends s

/-- A literal begins with its sign or with a digit. -/
theorem Literal.exists_head (l : Literal) :
    ∃ c s, l.chars = c :: s ∧ (c = '-' ∨ ∃ d : Digit, c = d.char) := by
  obtain ⟨negative, whole, fraction, exponent⟩ := l
  cases negative with
  | true => exact ⟨'-', _, rfl, Or.inl rfl⟩
  | false =>
    cases hds : digits whole with
    | nil => exact absurd hds (digits_ne_nil whole)
    | cons d ds =>
      have hhead : (Literal.chars ⟨false, whole, fraction, exponent⟩).head? = some d.char := by
        unfold chars
        rw [hds]
        rfl
      obtain ⟨s, hchars⟩ := List.head?_eq_some_iff.mp hhead
      exact ⟨d.char, s, hchars, Or.inr ⟨d, rfl⟩⟩

/-- No other token begins like a literal. -/
theorem readToken_of_literal {c : Char} (hc : c = '-' ∨ ∃ d : Digit, c = d.char) (s : List Char) :
    readToken (c :: s) = (Literal.read (c :: s)).map fun r => (.number r.1, r.2) := by
  have hne : ∀ x : Char, Digit.ofChar? x = none → x ≠ '-' → c ≠ x := by
    intro x hx hminus
    rcases hc with rfl | ⟨d, rfl⟩
    · exact hminus.symm
    · exact Digit.char_ne_of_ofChar? hx d
  unfold readToken
  split
  next he => exact absurd (List.cons.inj he).1 (hne '[' (by decide) (by decide))
  next he => exact absurd (List.cons.inj he).1 (hne ']' (by decide) (by decide))
  next he => exact absurd (List.cons.inj he).1 (hne '\x7b' (by decide) (by decide))
  next he => exact absurd (List.cons.inj he).1 (hne '\x7d' (by decide) (by decide))
  next he => exact absurd (List.cons.inj he).1 (hne ',' (by decide) (by decide))
  next he => exact absurd (List.cons.inj he).1 (hne ':' (by decide) (by decide))
  next he => exact absurd (List.cons.inj he).1 (hne '"' (by decide) (by decide))
  next he => exact absurd (List.cons.inj he).1 (hne 'n' (by decide) (by decide))
  next he => exact absurd (List.cons.inj he).1 (hne 't' (by decide) (by decide))
  next he => exact absurd (List.cons.inj he).1 (hne 'f' (by decide) (by decide))
  next => rfl

/-- A token is read from the front of a text as it was written. -/
theorem readToken_chars (t : Token) {s : List Char} (h : t.Ends s) :
    readToken (t.chars ++ s) = some (t, s) := by
  cases t with
  | openBracket | closeBracket | openBrace | closeBrace | comma | colon | null => rfl
  | bool b => cases b <;> rfl
  | string text =>
    obtain ⟨hquote, hread⟩ := readString_quoted text s
    show readToken (quoted text ++ s) = _
    generalize quoted text ++ s = cs at hquote hread
    cases cs with
    | nil => cases hquote
    | cons c cs =>
      obtain rfl := Option.some.inj hquote
      have hread : readString .empty cs = some (text, s) := hread
      show (readString .empty cs).map _ = _
      rw [hread]
      rfl
  | number n =>
    have hread := n.read_append (h n rfl)
    obtain ⟨c, cs, hchars, hc⟩ := n.exists_head
    show readToken (n.chars ++ s) = _
    rw [hchars, List.cons_append] at hread ⊢
    rw [readToken_of_literal hc, hread]
    rfl

/-- A token begins with a character that is no blank. -/
theorem Token.exists_head (t : Token) : ∃ c s, t.chars = c :: s ∧ isBlank c = false := by
  cases t with
  | openBracket | closeBracket | openBrace | closeBrace | comma | colon | null =>
    exact ⟨_, _, rfl, by decide⟩
  | bool b => cases b <;> exact ⟨_, _, rfl, by decide⟩
  | string text => cases text <;> exact ⟨_, _, rfl, by decide⟩
  | number n =>
    obtain ⟨c, s, hchars, hc⟩ := n.exists_head
    have hdigit : ∀ d : Digit, isBlank d.char = false := by decide
    refine ⟨c, s, hchars, ?_⟩
    rcases hc with rfl | ⟨d, rfl⟩
    · decide
    · exact hdigit d

/-! ## Spelling -/

/-- A text made of the given tokens, with blanks between them. -/
inductive Spells : List Char → List Token → Prop where
  | nil : Spells [] []
  | blank {c : Char} {s : List Char} {ts : List Token} (hc : isBlank c = true) (h : Spells s ts) :
      Spells (c :: s) ts
  | token (t : Token) {s : List Char} {ts : List Token} (hends : t.Ends s) (h : Spells s ts) :
      Spells (t.chars ++ s) (t :: ts)

/-- Every step of the lexer takes a character, so the length of the text is fuel enough. -/
theorem Spells.lexFrom {s : List Char} {ts : List Token} (h : Spells s ts) :
    ∀ (fuel : Nat) (done : List Token), s.length ≤ fuel →
      lexFrom fuel done s = some (done.reverse ++ ts) := by
  induction h with
  | nil =>
    intro fuel done _
    cases fuel <;> simp [Json.lexFrom]
  | blank hc h ih =>
    intro fuel done hfuel
    obtain ⟨fuel, rfl⟩ := Nat.exists_eq_succ_of_ne_zero (Nat.ne_zero_of_lt hfuel)
    have hrest := ih fuel done (Nat.le_of_succ_le_succ hfuel)
    simp only [Json.lexFrom, hc, if_true, hrest]
  | token t hends h ih =>
    intro fuel done hfuel
    obtain ⟨c, cs, hchars, hblank⟩ := t.exists_head
    have hread := readToken_chars t hends
    rw [hchars, List.cons_append] at hread hfuel ⊢
    obtain ⟨fuel, rfl⟩ := Nat.exists_eq_succ_of_ne_zero (Nat.ne_zero_of_lt hfuel)
    rw [List.length_cons, List.length_append] at hfuel
    have hrest := ih fuel (t :: done) (by omega)
    simp only [Json.lexFrom, hblank, Bool.false_eq_true, if_false, hread, hrest]
    simp

theorem lex_of_spells {s : List Char} {ts : List Token} (h : Spells s ts) : lex s = some ts :=
  (h.lexFrom s.length [] (Nat.le_refl _)).trans (by simp)

end Retrace.Json
