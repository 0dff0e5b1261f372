import Retrace.Trace.Document
import Retrace.Text.Blank
/-!
# What a trace that was read is known to be

A text that reads as a trace holds more than white space (`not_blank_of_read`), so it is never
mistaken for a missing source; and the trace is a completed one (`exists_of_read`) that has an entry
(`size_pos_of_read`). The first is a fact about JSON: white space other than the four blanks starts no
token, so a text of nothing but white space has no tokens or is malformed.
-/

namespace Retrace

/-- No white space is a visible ASCII character. -/
theorem not_visible_of_isWhiteSpace {c : Char} (h : isWhiteSpace c = true) :
    ¬(33 ≤ c.toNat ∧ c.toNat ≤ 126) := by
  simp only [isWhiteSpace, Bool.or_eq_true, Bool.and_eq_true, decide_eq_true_eq, beq_iff_eq] at h
  omega

namespace Json

theorem ofChar?_of_isWhiteSpace {c : Char} (h : isWhiteSpace c = true) : Digit.ofChar? c = none := by
  have hv := not_visible_of_isWhiteSpace h
  unfold Digit.ofChar?
  rw [dif_neg (by omega)]

theorem read_of_isWhiteSpace {c : Char} (h : isWhiteSpace c = true) (rest : List Char) :
    Literal.read (c :: rest) = none := by
  have hv := not_visible_of_isWhiteSpace h
  have hminus : c ≠ '-' := by
    intro he
    subst he
    exact hv (by decide)
  have hzero : c ≠ '0' := by
    intro he
    subst he
    exact hv (by decide)
  have hdigits : takeDigits (c :: rest) = ([], c :: rest) := by
    simp [takeDigits, ofChar?_of_isWhiteSpace h]
  have hwhole : Literal.readWhole (c :: rest) = none := by
    simp [Literal.readWhole, hzero, hdigits]
  unfold Literal.read
  simp [hminus, hwhole]

theorem readToken_of_isWhiteSpace {c : Char} (h : isWhiteSpace c = true) (rest : List Char) :
    readToken (c :: rest) = none := by
  have hv := not_visible_of_isWhiteSpace h
  have hne : ∀ d : Char, 33 ≤ d.toNat ∧ d.toNat ≤ 126 → c ≠ d := by
    intro d hd he
    subst he
    exact hv hd
  unfold readToken
  -- every token starts with a visible character, or is a number
  split
  next he => exact absurd (List.cons.inj he).1 (hne '[' (by decide))
  next he => exact absurd (List.cons.inj he).1 (hne ']' (by decide))
  next he => exact absurd (List.cons.inj he).1 (hne '\x7b' (by decide))
  next he => exact absurd (List.cons.inj he).1 (hne '\x7d' (by decide))
  next he => exact absurd (List.cons.inj he).1 (hne ',' (by decide))
  next he => exact absurd (List.cons.inj he).1 (hne ':' (by decide))
  next he => exact absurd (List.cons.inj he).1 (hne '"' (by decide))
  next he => exact absurd (List.cons.inj he).1 (hne 'n' (by decide))
  next he => exact absurd (List.cons.inj he).1 (hne 't' (by decide))
  next he => exact absurd (List.cons.inj he).1 (hne 'f' (by decide))
  next => rw [read_of_isWhiteSpace h rest]; rfl

/-- White space has no tokens: it is skipped, or it is not JSON. -/
theorem lexFrom_of_isWhiteSpace : ∀ (fuel : Nat) (s : List Char), s.all isWhiteSpace = true →
    lexFrom fuel [] s = some [] ∨ lexFrom fuel [] s = none
  | _, [], _ => Or.inl (by simp [lexFrom])
  | 0, c :: rest, _ => Or.inr (by simp [lexFrom])
  | fuel + 1, c :: rest, h => by
    have hboth : isWhiteSpace c = true ∧ rest.all isWhiteSpace = true := by simpa using h
    by_cases hb : isBlank c = true
    · -- a blank is skipped
      have hskip : lexFrom (fuel + 1) [] (c :: rest) = lexFrom fuel [] rest := by simp [lexFrom, hb]
      rw [hskip]
      exact lexFrom_of_isWhiteSpace fuel rest hboth.2
    · -- any other white space is where the lexer gives up
      right
      simp [lexFrom, hb, readToken_of_isWhiteSpace hboth.1 rest]

theorem parse?_of_blank {s : String} (h : isBlankText s = true) : Tree.parse? s = none := by
  have hlex := lexFrom_of_isWhiteSpace s.toList.length s.toList h
  unfold Tree.parse? lex
  rcases hlex with hnil | hnone
  · rw [hnil]
    simp [assemble]
  · rw [hnone]
    rfl

end Json

namespace Trace

theorem not_blank_of_read {source : String} {t : Trace} (h : read source = .ok t) :
    isBlankText source = false := by
  cases hb : isBlankText source with
  | false => rfl
  | true =>
    have hnone : Json.decode? decoder source = none := by
      unfold Json.decode?
      rw [Json.parse?_of_blank hb]
      rfl
    unfold read at h
    rw [hnone] at h
    cases h

/-- A trace that was read is the completion of one that the text denotes. -/
theorem exists_of_read {source : String} {t : Trace} (h : read source = .ok t) :
    ∃ u, Json.decode? decoder source = some u ∧ u.entries.isEmpty = false ∧ t = u.completed := by
  unfold read at h
  split at h
  · cases h
  · next u hu =>
    split at h
    · cases h
    · next hne =>
      injection h with h
      exact ⟨u, hu, Bool.eq_false_iff.mpr hne, h.symm⟩

/-- A text reads as the trace that it denotes, if that has an entry and leaves nothing to be completed. -/
theorem read_of_decode {source : String} {t : Trace} (hdecode : Json.decode? decoder source = some t)
    (hentries : t.entries.isEmpty = false)
    (hcompleted : t.entries.toList.map Entry.completed = t.entries.toList) : read source = .ok t := by
  have harray : t.entries.map Entry.completed = t.entries :=
    Array.toList_inj.mp (Array.toList_map.trans hcompleted)
  have hsame : t.completed = t := congrArg Trace.mk harray
  unfold read
  rw [hdecode]
  simp only [hentries, Bool.false_eq_true, if_false, hsame]

theorem size_pos_of_read {source : String} {t : Trace} (h : read source = .ok t) :
    0 < t.entries.size := by
  obtain ⟨u, -, hentries, rfl⟩ := exists_of_read h
  show 0 < (u.entries.map Entry.completed).size
  rw [Array.size_map]
  exact Nat.pos_of_ne_zero fun hz => by simp [Array.isEmpty, hz] at hentries

end Trace

end Retrace
