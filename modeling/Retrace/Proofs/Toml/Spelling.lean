import Mathlib.Algebra.Group.Nat.Defs
import Mathlib.Data.List.TakeDrop
import Retrace.Toml.Reader
/-!
# The statements of a document are found as they were written

`Spells` says of a text which statements it is made of: headers of tables, and keys with a number or a
truth value, each on a line of its own, with blanks, empty lines and comments around them as its writer
likes. They are found again, however the text is set (`readStatements_of_spells`). Each part is read up
to where the next one begins; what may follow a value is only the rest of its line (`Ends`), so that a
number is not taken for the front of a date.
-/

namespace Retrace.Toml

/-! ## Runs of characters -/

/-- A run of characters of one kind ends where another kind begins. -/
theorem span_append {p : Char → Bool} {run rest : List Char} (hrun : ∀ c ∈ run, p c = true)
    (hrest : ∀ c ∈ rest.head?, p c = false) : (run ++ rest).span p = (run, rest) := by
  rw [List.span_eq_takeWhile_dropWhile, List.takeWhile_append_of_pos hrun,
    List.dropWhile_append_of_pos hrun]
  cases rest with
  | nil => simp
  | cons c rest => simp [hrest c rfl]

/-- A character of one kind is none of another kind. -/
theorem ne_of_kind {p : Char → Bool} {c x : Char} (hc : p c = true) (hx : p x = false) : c ≠ x := by
  rintro rfl
  exact nomatch hx.symm.trans hc

theorem isBlank_iff {c : Char} : isBlank c = true ↔ c = ' ' ∨ c = '\t' := by
  simp [isBlank]

theorem not_blank_of_kind {p : Char → Bool} (hspace : p ' ' = false) (htab : p '\t' = false) {c : Char}
    (hc : p c = true) : isBlank c = false := by
  cases hblank : isBlank c with
  | false => rfl
  | true =>
    rcases isBlank_iff.mp hblank with he | he
    · exact absurd he (ne_of_kind hc hspace)
    · exact absurd he (ne_of_kind hc htab)

/-- Whether a text is made of blanks. -/
def Blanks (s : List Char) : Prop := ∀ c ∈ s, isBlank c = true

instance (s : List Char) : Decidable (Blanks s) := List.decidableBAll (isBlank · = true) s

theorem dropBlanks_append {b s : List Char} (hb : Blanks b) (hs : ∀ c ∈ s.head?, isBlank c = false) :
    dropBlanks (b ++ s) = s := by
  rw [dropBlanks, List.dropWhile_append_of_pos hb]
  cases s with
  | nil => rfl
  | cons c s => simp [hs c rfl]

/-- Blanks and what follows them begin with a blank or with what follows. -/
theorem head?_append_blanks {b s : List Char} (hb : Blanks b) {c : Char} (hc : c ∈ (b ++ s).head?) :
    isBlank c = true ∨ c ∈ s.head? := by
  cases b with
  | nil => exact Or.inr hc
  | cons d b =>
    obtain rfl := Option.some.inj hc
    exact Or.inl (hb _ (.head _))

/-- Whether a text goes on with the end of the line it stands in. -/
def Ends (s : List Char) : Prop := endsLine (dropBlanks s) = true

theorem dropBreak?_eq_some {s s' : List Char} (h : dropBreak? s = some s') :
    s = '\n' :: s' ∨ s = '\r' :: '\n' :: s' := by
  unfold dropBreak? at h
  split at h
  · exact Or.inl (congrArg _ (Option.some.inj h))
  · exact Or.inr (congrArg _ (congrArg _ (Option.some.inj h)))
  · cases h

/-- The end of a line begins with a break or a comment, unless nothing follows at all. -/
theorem head_of_endsLine {c : Char} {s : List Char} (h : endsLine (c :: s) = true) :
    c = '#' ∨ c = '\n' ∨ c = '\r' := by
  simp only [endsLine, Bool.or_eq_true, beq_iff_eq] at h
  refine h.imp_right fun hbreak => ?_
  obtain ⟨s', hs'⟩ := Option.isSome_iff_exists.mp hbreak
  exact (dropBreak?_eq_some hs').imp (fun he => (List.cons.inj he).1) fun he => (List.cons.inj he).1

theorem Ends.of_blank {c : Char} {s : List Char} (hc : isBlank c = true) (h : Ends (c :: s)) :
    Ends s := by
  rwa [Ends, dropBlanks, List.dropWhile_cons_of_pos hc] at h

theorem Ends.head {s : List Char} (h : Ends s) :
    ∀ c ∈ s.head?, c = ' ' ∨ c = '\t' ∨ c = '#' ∨ c = '\n' ∨ c = '\r' := by
  intro c hc
  obtain ⟨s, rfl⟩ := List.head?_eq_some_iff.mp hc
  cases hblank : isBlank c with
  | true => exact (isBlank_iff.mp hblank).imp_right Or.inl
  | false =>
    rw [Ends, dropBlanks, List.dropWhile_cons_of_neg (by simp [hblank])] at h
    exact Or.inr (Or.inr (head_of_endsLine h))

/-- Where a line may end no scalar goes on. -/
theorem Ends.not_scalar {s : List Char} (h : Ends s) : ∀ c ∈ s.head?, isScalarChar c = false := by
  intro c hc
  rcases h.head c hc with rfl | rfl | rfl | rfl | rfl <;> decide

/-! ## Values -/

theorem digitIn?_char (d : Digit) : digitIn? 10 d.char = some d.val := by
  revert d
  decide

theorem ungroup_digits {ds : List Digit} (h : ds ≠ []) :
    ungroup (digitIn? 10) (ds.map Digit.char) = some (ds.map Fin.val) := by
  induction ds with
  | nil => exact absurd rfl h
  | cons d ds ih =>
    cases ds with
    | nil => simp [ungroup, digitIn?_char]
    | cons d' ds =>
      have hrest := ih (List.cons_ne_nil d' ds)
      have hgroup : d'.char ≠ '_' := Digit.char_ne_of_ofChar? (by decide) d'
      rw [List.map_cons] at hrest
      rw [List.map_cons, List.map_cons, ungroup.eq_4 _ _ _ _ hgroup, digitIn?_char, hrest]
      rfl

theorem numberIn_digits (ds : List Digit) : numberIn 10 (ds.map Fin.val) = ofDigits ds := by
  rw [numberIn, ofDigits, List.foldl_map]

theorem decimalDigits?_digits (n : Nat) :
    decimalDigits? ((digits n).map Digit.char) = some ((digits n).map Fin.val) := by
  rw [decimalDigits?, ungroup_digits (digits_ne_nil n)]
  split
  · next d ds he =>
    -- a number with a zero in front is zero, which has one digit
    exfalso
    have hlist : (digits n).map Fin.val = 0 :: d :: ds := Option.some.inj he
    have hhead : (digits n).head? = some 0 := by
      cases hds : digits n with
      | nil => exact absurd hds (digits_ne_nil n)
      | cons d' ds' =>
        rw [hds, List.map_cons] at hlist
        have hd : d' = 0 := Fin.ext (List.cons.inj hlist).1
        rw [List.head?_cons, hd]
    have hn : n = 0 := Classical.byContradiction fun hne => head_digits_ne_zero hne hhead
    rw [hn, digits_zero] at hlist
    cases hlist
  · rfl

/-- A character that is no digit does not stand among digits. -/
theorem not_mem_digits {c : Char} (h : Digit.ofChar? c = none) (ds : List Digit) :
    c ∉ ds.map Digit.char := by
  intro hc
  obtain ⟨d, -, he⟩ := List.mem_map.mp hc
  exact Digit.char_ne_of_ofChar? h d he

theorem integer?_digits (n : Nat) : integer? ((digits n).map Digit.char) = some (n : Int) := by
  have hdigits := decimalDigits?_digits n
  have hvalue := (numberIn_digits (digits n)).trans (ofDigits_digits n)
  generalize hrun : (digits n).map Digit.char = run at hdigits
  have hno : ∀ c, Digit.ofChar? c = none → c ∉ run := fun c hc => hrun ▸ not_mem_digits hc _
  unfold integer?
  split
  next => exact absurd (.tail _ (.head _)) (hno 'x' (by decide))
  next => exact absurd (.tail _ (.head _)) (hno 'o' (by decide))
  next => exact absurd (.tail _ (.head _)) (hno 'b' (by decide))
  next =>
    have hsign : splitSign run = (false, run) := by
      unfold splitSign
      split
      next => exact absurd (.head _) (hno '-' (by decide))
      next => exact absurd (.head _) (hno '+' (by decide))
      next => rfl
    rw [hsign]
    simp only [hdigits, hvalue, Option.map_some, Bool.false_eq_true, if_false]

/-- A number or a truth value, as it is written. -/
inductive SpellsValue : List Char → Value → Prop where
  | integer {n : Nat} (h : n < 2 ^ 128) : SpellsValue ((digits n).map Digit.char) (.integer n)
  | yes : SpellsValue ['t', 'r', 'u', 'e'] (.boolean true)
  | no : SpellsValue ['f', 'a', 'l', 's', 'e'] (.boolean false)

namespace SpellsValue

variable {t : List Char} {v : Value}

theorem scalar? (h : SpellsValue t v) : Toml.scalar? t = some v := by
  cases h with
  | @integer n hn =>
    have hno : ∀ c, Digit.ofChar? c = none → c ∉ (digits n).map Digit.char :=
      fun c hc => not_mem_digits hc _
    have hyes : (digits n).map Digit.char ≠ ['t', 'r', 'u', 'e'] := fun he =>
      hno 'e' (by decide) (by simp [he])
    have hfalse : (digits n).map Digit.char ≠ ['f', 'a', 'l', 's', 'e'] := fun he =>
      hno 'e' (by decide) (by simp [he])
    have hheld : isHeld n = true := by
      simp only [isHeld, Nat.one_shiftLeft, Bool.and_eq_true, decide_eq_true_eq]
      omega
    unfold Toml.scalar?
    simp only [if_neg hyes, if_neg hfalse, integer?_digits, hheld, if_true]
  | yes => rfl
  | no => rfl

theorem isScalarChar (h : SpellsValue t v) : ∀ c ∈ t, isScalarChar c = true := by
  have hdigit : ∀ d : Digit, Toml.isScalarChar d.char = true := by decide
  cases h with
  | integer =>
    intro c hc
    obtain ⟨d, -, rfl⟩ := List.mem_map.mp hc
    exact hdigit d
  | yes | no => exact List.all_eq_true.mp (by decide)

theorem ne_nil (h : SpellsValue t v) : t ≠ [] := by
  cases h with
  | integer => simp [digits_ne_nil]
  | yes => simp
  | no => simp

/-- The value is read up to where its line may end. After a blank no digit follows then, so the run is
not tried as a date. -/
theorem readScalar (h : SpellsValue t v) {s : List Char} (hs : Ends s) :
    Toml.readScalar (t ++ s) = some (v, s) := by
  unfold Toml.readScalar
  rw [span_append h.isScalarChar hs.not_scalar]
  simp only [h.scalar?, Option.map_some]
  split
  · next d more =>
    have hd : d.isDigit = false := by
      rcases (hs.of_blank rfl).head d rfl with rfl | rfl | rfl | rfl | rfl <;> decide
    simp [hd]
  · rfl

theorem readValue (h : SpellsValue t v) {s : List Char} (hs : Ends s) (fuel depth : Nat) :
    Toml.readValue (fuel + 1) depth (t ++ s) = some (v, s) := by
  have hread := h.readScalar hs
  obtain ⟨c, t, rfl⟩ := List.exists_cons_of_ne_nil h.ne_nil
  have hne : ∀ x, Toml.isScalarChar x = false → c ≠ x :=
    fun x => ne_of_kind (h.isScalarChar c (.head _))
  rw [List.cons_append] at hread ⊢
  rw [Toml.readValue]
  · exact hread
  · exact fun _ he => hne '"' (by decide) (List.cons.inj he).1
  · exact fun _ he => hne '\'' (by decide) (List.cons.inj he).1
  · exact fun _ he => hne '[' (by decide) (List.cons.inj he).1
  · exact fun _ he => hne '\x7b' (by decide) (List.cons.inj he).1

end SpellsValue

/-! ## Keys -/

/-- Whether a name may stand as a key without quotes. -/
def IsBare (name : String) : Prop := name.toList ≠ [] ∧ ∀ c ∈ name.toList, isBareKeyChar c = true

instance (name : String) : Decidable (IsBare name) :=
  @instDecidableAnd _ _ _ (List.decidableBAll (isBareKeyChar · = true) name.toList)

theorem IsBare.exists_head {name : String} (h : IsBare name) :
    ∃ c cs, name.toList = c :: cs ∧ isBareKeyChar c = true := by
  obtain ⟨c, cs, hname⟩ := List.exists_cons_of_ne_nil h.1
  exact ⟨c, cs, hname, h.2 c (by simp [hname])⟩

theorem readKeyPart_bare {name : String} (h : IsBare name) {s : List Char}
    (hs : ∀ c ∈ s.head?, isBareKeyChar c = false) :
    readKeyPart (name.toList ++ s) = some (name, s) := by
  have hspan := span_append h.2 hs
  obtain ⟨c, cs, hname, hc⟩ := h.exists_head
  have hne : ∀ x, isBareKeyChar x = false → c ≠ x := fun x => ne_of_kind hc
  have htext : String.ofList (c :: cs) = name := by rw [← hname, String.ofList_toList]
  rw [hname, List.cons_append] at hspan ⊢
  unfold readKeyPart
  split
  next he => exact absurd (List.cons.inj he).1 (hne '"' (by decide))
  next he => exact absurd (List.cons.inj he).1 (hne '\'' (by decide))
  next =>
    rw [hspan]
    simp only [htext]

/-- A key is read with the blanks around it, up to the mark that ends it. -/
theorem readKey_bare {name : String} (h : IsBare name) {b b' : List Char} (hb : Blanks b)
    (hb' : Blanks b') {mark : Char} (hmark : mark = '=' ∨ mark = ']') (s : List Char) :
    readKey (b ++ (name.toList ++ (b' ++ mark :: s))) = some (⟨[], name⟩, mark :: s) := by
  have hblank : isBlank mark = false := by rcases hmark with rfl | rfl <;> decide
  have hfront : dropBlanks (b ++ (name.toList ++ (b' ++ mark :: s)))
      = name.toList ++ (b' ++ mark :: s) := by
    refine dropBlanks_append hb fun c hc => ?_
    obtain ⟨d, cs, hname, hd⟩ := h.exists_head
    rw [hname] at hc
    obtain rfl := Option.some.inj hc
    exact not_blank_of_kind (by decide) (by decide) hd
  have hpart : readKeyPart (name.toList ++ (b' ++ mark :: s)) = some (name, b' ++ mark :: s) := by
    refine readKeyPart_bare h fun c hc => ?_
    rcases head?_append_blanks hb' hc with hc | hc
    · rcases isBlank_iff.mp hc with rfl | rfl <;> decide
    · obtain rfl := Option.some.inj hc
      rcases hmark with rfl | rfl <;> decide
  have hafter : dropBlanks (b' ++ mark :: s) = mark :: s :=
    dropBlanks_append hb' fun c hc => Option.some.inj hc ▸ hblank
  unfold readKey
  rw [readKeyFrom, hfront, hpart]
  simp only [hafter]
  split
  next he =>
    have hpoint : mark = '.' := (List.cons.inj he).1
    rcases hmark with rfl | rfl <;> exact nomatch hpoint
  next => rfl

/-! ## Statements -/

/-- The header of a table, or a key with its value, as they stand in a line. -/
inductive SpellsLine : List Char → Statement → Prop where
  | header {name : String} (hname : IsBare name) (b b' : List Char) (hb : Blanks b) (hb' : Blanks b') :
      SpellsLine ('[' :: (b ++ (name.toList ++ (b' ++ [']'])))) (.table ⟨[], name⟩)
  | entry {key : String} (hkey : IsBare key) (b b' : List Char) (hb : Blanks b) (hb' : Blanks b')
      {t : List Char} {v : Value} (hv : SpellsValue t v) :
      SpellsLine (key.toList ++ (b ++ '=' :: (b' ++ t))) (.entry ⟨[], key⟩ v)

namespace SpellsLine

variable {t : List Char} {st : Statement}

/-- A line begins with a bracket or a letter. -/
theorem exists_head (h : SpellsLine t st) :
    ∃ c cs, t = c :: cs ∧ (c = '[' ∨ isBareKeyChar c = true) := by
  cases h with
  | header => exact ⟨_, _, rfl, Or.inl rfl⟩
  | @entry key hkey =>
    obtain ⟨c, cs, hname, hc⟩ := hkey.exists_head
    exact ⟨c, _, by rw [hname, List.cons_append], Or.inr hc⟩

theorem readStatement (h : SpellsLine t st) {s : List Char} (hs : Ends s) :
    Toml.readStatement (t ++ s) = some (st, s) := by
  cases h with
  | @header name hname b b' hb hb' =>
    have hkey := readKey_bare hname hb hb' (Or.inr rfl : ']' = '=' ∨ ']' = ']') s
    have htext : ('[' :: (b ++ (name.toList ++ (b' ++ [']'])))) ++ s
        = '[' :: (b ++ (name.toList ++ (b' ++ ']' :: s))) := by simp
    rw [htext]
    unfold Toml.readStatement
    split
    next rest he =>
      -- a second bracket would be part of the name
      have hrest : b ++ (name.toList ++ (b' ++ ']' :: s)) = '[' :: rest := (List.cons.inj he).2
      obtain ⟨c, cs, hchars, hc⟩ := hname.exists_head
      have hhead : '[' ∈ (b ++ (name.toList ++ (b' ++ ']' :: s))).head? := by rw [hrest]; rfl
      rcases head?_append_blanks hb hhead with hblank | hfirst
      · exact absurd hblank (by decide)
      · rw [hchars] at hfirst
        obtain rfl := Option.some.inj hfirst
        exact absurd hc (by decide)
    next rest _ he =>
      obtain rfl := (List.cons.inj he).2
      simp only [hkey]
    next hone => exact absurd rfl (hone _)
  | @entry key hkey b b' hb hb' t v hv =>
    have hread := readKey_bare hkey (b := []) (by decide) hb
      (Or.inl rfl : '=' = '=' ∨ '=' = ']') (b' ++ (t ++ s))
    have hvalue : dropBlanks (b' ++ (t ++ s)) = t ++ s := by
      refine dropBlanks_append hb' fun c hc => ?_
      obtain ⟨d, cs, rfl⟩ := List.exists_cons_of_ne_nil hv.ne_nil
      obtain rfl := Option.some.inj hc
      exact not_blank_of_kind (by decide) (by decide) (hv.isScalarChar d (.head _))
    have htext : (key.toList ++ (b ++ '=' :: (b' ++ t))) ++ s
        = key.toList ++ (b ++ '=' :: (b' ++ (t ++ s))) := by simp
    rw [List.nil_append] at hread
    rw [htext]
    obtain ⟨c, cs, hchars, hc⟩ := hkey.exists_head
    have hbracket : c ≠ '[' := ne_of_kind hc (by decide)
    rw [hchars, List.cons_append] at hread ⊢
    unfold Toml.readStatement
    split
    next he => exact absurd (List.cons.inj he).1 hbracket
    next he => exact absurd (List.cons.inj he).1 hbracket
    next =>
      simp only [hread, readEquals, hvalue, hv.readValue hs, Option.bind_eq_bind, Option.bind_some]

end SpellsLine

/-! ## Documents -/

/-- A text made of the given statements, with blanks, line breaks and comments between them. -/
inductive Spells : List Char → List Statement → Prop where
  | nil : Spells [] []
  | blank {c : Char} {s : List Char} {sts : List Statement} (hc : isBlank c = true) (h : Spells s sts) :
      Spells (c :: s) sts
  | newline {s s' : List Char} {sts : List Statement} (hs : dropBreak? s = some s') (h : Spells s' sts) :
      Spells s sts
  | comment {t s : List Char} {sts : List Statement} (ht : ∀ c ∈ t, isForbidden c = false)
      (hs : s = [] ∨ (dropBreak? s).isSome) (h : Spells s sts) : Spells ('#' :: (t ++ s)) sts
  | line {t s : List Char} {st : Statement} {sts : List Statement} (ht : SpellsLine t st) (hs : Ends s)
      (h : Spells s sts) : Spells (t ++ s) (st :: sts)

/-- A line with a break after it, and what stands on the lines below. -/
theorem Spells.above {t s : List Char} {st : Statement} {sts : List Statement} (h : Spells s sts)
    (ht : SpellsLine t st) : Spells (t ++ '\n' :: s) (st :: sts) :=
  .line ht rfl (.newline rfl h)

theorem skipFiller_break {s s' : List Char} (h : dropBreak? s = some s') (inComment : Bool) :
    skipFiller inComment s = skipFiller false s' := by
  rcases dropBreak?_eq_some h with rfl | rfl <;> simp [skipFiller]

theorem skipFiller_blank {c : Char} (hc : isBlank c = true) (s : List Char) :
    skipFiller false (c :: s) = skipFiller false s := by
  rcases isBlank_iff.mp hc with rfl | rfl <;> simp [skipFiller, isBlank]

theorem skipFiller_dropBlanks (s : List Char) :
    skipFiller false (dropBlanks s) = skipFiller false s := by
  induction s with
  | nil => rfl
  | cons c s ih =>
    cases hc : isBlank c with
    | true => rw [dropBlanks, List.dropWhile_cons_of_pos hc, skipFiller_blank hc]; exact ih
    | false => rw [dropBlanks, List.dropWhile_cons_of_neg (by simp [hc])]

/-- A comment is skipped with its line. -/
theorem skipFiller_comment {t s : List Char} (ht : ∀ c ∈ t, isForbidden c = false)
    (hs : s = [] ∨ (dropBreak? s).isSome) : skipFiller true (t ++ s) = skipFiller false s := by
  induction t with
  | nil =>
    rcases hs with rfl | hs
    · rfl
    · obtain ⟨s', hs'⟩ := Option.isSome_iff_exists.mp hs
      rw [List.nil_append, skipFiller_break hs', skipFiller_break hs']
  | cons c t ih =>
    have hc := ht c (.head _)
    have hnewline : c ≠ '\n' := by rintro rfl; exact nomatch hc
    have hreturn : c ≠ '\r' := by rintro rfl; exact nomatch hc
    have hrest := ih fun c' hc' => ht c' (.tail _ hc')
    rw [List.cons_append, skipFiller.eq_4 _ _ hnewline (fun _ he _ => hreturn he), hc]
    exact hrest

/-- What stands between two statements does not matter to the reader. -/
theorem readStatements_congr {s s' : List Char} (h : skipFiller false s = skipFiller false s')
    (fuel : Nat) (done : List Statement) : readStatements fuel done s = readStatements fuel done s' := by
  cases fuel with
  | zero => rfl
  | succ fuel => simp only [readStatements, h]

theorem SpellsLine.skipFiller {t : List Char} {st : Statement} (h : SpellsLine t st) (s : List Char) :
    Toml.skipFiller false (t ++ s) = some (t ++ s) := by
  obtain ⟨c, cs, rfl, hc⟩ := h.exists_head
  have hne : ∀ x, x ≠ '[' → isBareKeyChar x = false → c ≠ x := fun x hx hbare =>
    hc.elim (fun he => he ▸ hx.symm) fun hc => ne_of_kind hc hbare
  have hblank : isBlank c = false :=
    hc.elim (fun he => he ▸ rfl) (not_blank_of_kind (by decide) (by decide))
  have hcomment : c ≠ '#' := hne '#' (by decide) (by decide)
  rw [List.cons_append, Toml.skipFiller.eq_5 _ _ (hne '\n' (by decide) (by decide))
    (fun _ he _ => hne '\r' (by decide) (by decide) he), hblank]
  simp only [Bool.false_eq_true, if_false, hcomment]

/-- Every statement takes a character, so the length of the text is fuel enough. -/
theorem Spells.readStatements {s : List Char} {sts : List Statement} (h : Spells s sts) :
    ∀ (fuel : Nat) (done : List Statement), s.length < fuel →
      Toml.readStatements fuel done s = some (done.reverse ++ sts) := by
  induction h with
  | nil =>
    intro fuel done hfuel
    obtain ⟨fuel, rfl⟩ := Nat.exists_eq_succ_of_ne_zero (Nat.ne_zero_of_lt hfuel)
    simp [Toml.readStatements, Toml.skipFiller]
  | blank hc h ih =>
    intro fuel done hfuel
    rw [readStatements_congr (skipFiller_blank hc _)]
    exact ih fuel done (Nat.lt_of_succ_lt hfuel)
  | @newline s s' sts hs h ih =>
    intro fuel done hfuel
    rw [readStatements_congr (skipFiller_break hs false)]
    refine ih fuel done (Nat.lt_of_le_of_lt ?_ hfuel)
    rcases dropBreak?_eq_some hs with rfl | rfl <;> simp only [List.length_cons] <;> omega
  | @comment t s sts ht hs h ih =>
    intro fuel done hfuel
    have hskip : Toml.skipFiller false ('#' :: (t ++ s)) = Toml.skipFiller false s := by
      rw [← skipFiller_comment ht hs]
      simp [Toml.skipFiller, isBlank]
    rw [readStatements_congr hskip]
    refine ih fuel done (Nat.lt_of_le_of_lt ?_ hfuel)
    simp only [List.length_cons, List.length_append]
    omega
  | @line t s st sts ht hs h ih =>
    intro fuel done hfuel
    obtain ⟨fuel, rfl⟩ := Nat.exists_eq_succ_of_ne_zero (Nat.ne_zero_of_lt hfuel)
    have hread := ht.readStatement hs
    have hskip := ht.skipFiller s
    obtain ⟨c, cs, rfl, -⟩ := ht.exists_head
    rw [List.cons_append] at hread hskip hfuel ⊢
    rw [List.length_cons, List.length_append] at hfuel
    have hends : endsLine (dropBlanks s) = true := hs
    have hrest := ih fuel (st :: done) (by omega)
    rw [Toml.readStatements, hskip]
    simp only [Option.bind_eq_bind, Option.bind_some, hread, hends, if_true]
    rw [readStatements_congr (skipFiller_dropBlanks s), hrest]
    simp

/-- A text that is spelled in this way does not begin with a byte order mark. -/
theorem Spells.head_ne_mark {s : List Char} {sts : List Statement} (h : Spells s sts) :
    ∀ c ∈ s.head?, c.toNat ≠ 0xFEFF := by
  intro c hc
  cases h with
  | nil => cases hc
  | blank hblank h =>
    obtain rfl := Option.some.inj hc
    rcases isBlank_iff.mp hblank with rfl | rfl <;> decide
  | newline hs h =>
    rcases dropBreak?_eq_some hs with rfl | rfl <;> obtain rfl := Option.some.inj hc <;> decide
  | comment ht hs h =>
    obtain rfl := Option.some.inj hc
    decide
  | line ht hs h =>
    obtain ⟨d, cs, rfl, hd⟩ := ht.exists_head
    obtain rfl := Option.some.inj hc
    rcases hd with rfl | hd
    · decide
    · intro hmark
      have hchar : Char.ofNat 0xFEFF = d := by rw [← hmark, Char.ofNat_toNat]
      rw [← hchar] at hd
      exact absurd hd (by decide)

end Retrace.Toml
