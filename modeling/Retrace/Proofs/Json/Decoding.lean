import Retrace.Proofs.Json.Value
/-!
# Decoders against what is written

A decoder *reads* a tree as something if it gives that back whenever it may enter as deep as the tree
nests (`Decoder.Reads`), and it *yields* what is known of everything it can give (`Decoder.Yields`). Both
go from the parts of a record to the record: what is written under the names of the fields is found
there (`Tree.record?_record`), each field one level deeper.
-/

namespace Retrace.Json

/-! ## Reading what is written -/

/-- Whether a decoder gives back `a` from the tree `t`, if it may enter deep enough. -/
def Decoder.Reads (decode : Decoder α) (t : Tree) (a : α) : Prop :=
  ∀ depth, t.nesting ≤ depth → decode depth t = some a

theorem Tree.text_ne_null (s : String) : Tree.text s ≠ .null := by
  intro h
  cases h

theorem Tree.nat_ne_null (n : Nat) : Tree.nat n ≠ .null := by
  intro h
  cases h

namespace Decoder

theorem reads_text (s : String) : string.Reads (.text s) s := fun _ _ => rfl

theorem reads_bool (b : Bool) : bool.Reads (.bool b) b := fun _ _ => rfl

theorem reads_value {v : Value} (hv : v.Proper) (hi : v.Integral) :
    Reads (fun depth t => (t.value? depth).map some) v.tree (some v) := by
  intro depth hn
  show (v.tree.value? depth).map some = _
  rw [v.value?_tree hv hi hn, Option.map_some]

theorem reads_nat {n : Nat} (h : n < 2 ^ 64) : nat.Reads (.nat n) n := by
  intro depth _
  have hsign : ¬(n : Int) < 0 := Int.not_lt.mpr (Int.natCast_nonneg n)
  have hlt : n < 1 <<< 64 := by
    rw [Nat.one_shiftLeft]
    exact h
  simp only [Tree.nat, nat, Literal.ofInt, Literal.isWhole, hsign, Int.natAbs_natCast, hlt]
  rfl

/-- A part that is there, where it is optional. -/
theorem Reads.option {decode : Decoder α} {t : Tree} {a : α} (h : decode.Reads t a)
    (hnull : t ≠ .null) : decode.option.Reads t (some a) := by
  intro depth hn
  rw [Decoder.option.eq_2 _ _ _ hnull, h depth hn]
  rfl

/-- An optional part, absent as `null`, reads back unless a present one is written as `null` too. -/
theorem reads_orNull {decode : Decoder α} {write : α → Tree} {o : Option α}
    (hnull : ∀ a, write a ≠ .null) (h : ∀ a ∈ o, decode.Reads (write a) a) :
    decode.option.Reads (.orNull write o) o := by
  cases o with
  | none => exact fun _ _ => rfl
  | some a => exact (h a rfl).option (hnull a)

theorem reads_list {decode : Decoder α} {write : α → Tree} {as : List α}
    (h : ∀ a ∈ as, decode.Reads (write a) a) :
    (list decode).Reads (.array (as.map write)) as := by
  intro depth hn
  cases depth with
  | zero => exact absurd hn (Nat.not_succ_le_zero _)
  | succ depth =>
    have hitems := Tree.nesting_array_le.mp hn
    show (as.map write).mapM (decode depth) = some as
    clear hn
    induction as with
    | nil => rfl
    | cons a as ih =>
      have hfirst : decode depth (write a) = some a := h a (.head _) depth (hitems _ (.head _))
      have hrest := ih (fun a' ha' => h a' (.tail _ ha')) fun t ht => hitems t (.tail _ ht)
      rw [List.map_cons, List.mapM_cons, hfirst, hrest]
      rfl

end Decoder

theorem knownMembers?_written {names : List String} {members : List (String × Tree)}
    (hknown : ∀ m ∈ members, m.1 ∈ names) :
    knownMembers? names (members.map fun m => (some m.1, m.2)) = some members := by
  induction members with
  | nil => rfl
  | cons m members ih =>
    have hrest := ih fun m' hm' => hknown m' (.tail _ hm')
    have hm : names.contains m.1 := List.contains_iff_mem.mpr (hknown m (.head _))
    rw [List.map_cons, knownMembers?, hrest, Option.map_some, if_pos hm]

/-- Whether the fields of a record nest no deeper than the reader may enter. -/
def Record.Fits (r : Record) : Prop := ∀ m ∈ r.fields, m.2.nesting ≤ r.depth

/-- An object written with fields of a record, each once, is read as these fields, one level deeper. -/
theorem Tree.record?_written {names : List String} {members : List (String × Tree)}
    (hnodup : (members.map Prod.fst).Nodup) (hknown : ∀ m ∈ members, m.1 ∈ names) (depth : Nat) :
    (Tree.record members).record? names (depth + 1) = some ⟨true, members, depth⟩ := by
  simp only [Tree.record, Tree.record?, knownMembers?_written hknown, if_pos hnodup]

/-- The fields fit, if the object does. -/
theorem Tree.record?_record (names : List String) {members : List (String × Tree)} {depth : Nat}
    (hnodup : (members.map Prod.fst).Nodup) (hknown : ∀ m ∈ members, m.1 ∈ names)
    (hn : (Tree.record members).nesting ≤ depth) :
    ∃ rest, (Tree.record members).record? names depth = some ⟨true, members, rest⟩ ∧
      Record.Fits ⟨true, members, rest⟩ := by
  cases depth with
  | zero => exact absurd hn (Nat.not_succ_le_zero _)
  | succ depth => exact ⟨depth, record?_written hnodup hknown depth, nesting_record_le.mp hn⟩

namespace Record

variable {r : Record} {decode : Decoder α} {name : String} {t : Tree} {a : α}

theorem Fits.of_lookup (hr : r.Fits) (ht : r.fields.lookup name = some t) : t.nesting ≤ r.depth := by
  obtain ⟨before, after, hfields, -⟩ := List.lookup_eq_some_iff.mp ht
  refine hr (name, t) ?_
  rw [hfields]
  exact List.mem_append_right _ (.head _)

theorem Fits.required (hr : r.Fits) (name : String) (ht : r.fields.lookup name = some t)
    (h : decode.Reads t a) : r.required name decode = some a := by
  rw [Record.required, ht]
  exact h _ (hr.of_lookup ht)

theorem Fits.withDefault (hr : r.Fits) (name : String) (ht : r.fields.lookup name = some t)
    (h : decode.Reads t a) (default : α) : r.withDefault name default decode = some a := by
  rw [Record.withDefault, ht]
  exact h _ (hr.of_lookup ht)

/-- A field that is written only if there is something to write. -/
theorem Fits.optional {o : Option α} {write : α → Tree} {decode : Decoder (Option α)} (hr : r.Fits)
    (name : String) (ht : r.fields.lookup name = o.map write)
    (h : ∀ a ∈ o, decode.Reads (write a) (some a)) : r.withDefault name none decode = some o := by
  cases o with
  | none =>
    rw [Record.withDefault, ht]
    rfl
  | some a => exact hr.withDefault name ht (h a rfl) none

/-- A field of an object that has no default and is left out if there is nothing to write. -/
theorem Fits.omissible {o : Option α} {write : α → Tree} (hr : r.Fits) (hnamed : r.named = true)
    (name : String) (ht : r.fields.lookup name = o.map write) (hnull : ∀ a, write a ≠ .null)
    (h : ∀ a ∈ o, decode.Reads (write a) a) : r.optional name decode = some o := by
  cases o with
  | none =>
    rw [Record.optional, ht]
    exact if_pos hnamed
  | some a =>
    rw [Record.optional, ht]
    exact (h a rfl).option (hnull a) _ (hr.of_lookup ht)

end Record

/-! ## What a decoder can give -/

/-- Whether everything a decoder gives is as `P` says, for the nesting it may enter. -/
def Decoder.Yields (decode : Decoder α) (P : Nat → α → Prop) : Prop :=
  ∀ depth t a, decode depth t = some a → P depth a

namespace Decoder

theorem nat_yields : nat.Yields fun _ n => n < 2 ^ 64 := by
  intro depth t n h
  cases t with
  | number l =>
    rw [nat] at h
    split at h
    · next hl =>
      simp only [Bool.and_eq_true, decide_eq_true_eq, Nat.one_shiftLeft] at hl
      obtain rfl := Option.some.inj h
      exact hl.2
    · cases h
  | _ => cases h

theorem Yields.option {decode : Decoder α} {P : Nat → α → Prop} (h : decode.Yields P) :
    decode.option.Yields fun depth o => ∀ a ∈ o, P depth a := by
  intro depth t o ho a ha
  obtain rfl := ha
  by_cases ht : t = .null
  · subst ht
    cases ho
  · rw [Decoder.option.eq_2 _ _ _ ht] at ho
    obtain ⟨a', ha', he⟩ := Option.map_eq_some_iff.mp ho
    obtain rfl := Option.some.inj he
    exact h _ _ _ ha'

/-- The items of an array are read one level deeper. -/
theorem Yields.list {decode : Decoder α} {P : Nat → α → Prop} (h : decode.Yields P) :
    (list decode).Yields fun depth as => ∀ a ∈ as, ∃ rest, depth = rest + 1 ∧ P rest a := by
  intro depth t as hlist
  unfold Decoder.list at hlist
  split at hlist
  · next depth ts =>
    induction ts generalizing as with
    | nil =>
      obtain rfl := Option.some.inj hlist
      nofun
    | cons t ts ih =>
      rw [List.mapM_cons] at hlist
      obtain ⟨a, ha, hlist⟩ := Option.bind_eq_some_iff.mp hlist
      obtain ⟨as', has', he⟩ := Option.bind_eq_some_iff.mp hlist
      obtain rfl := Option.some.inj he
      exact List.forall_mem_cons.mpr ⟨⟨depth, rfl, h _ _ _ ha⟩, ih as' has'⟩
  · cases hlist

end Decoder

/-- The fields of a record are read one level deeper than the record. -/
theorem Tree.record?_depth {t : Tree} {names : List String} {depth : Nat} {r : Record}
    (h : t.record? names depth = some r) : depth = r.depth + 1 := by
  unfold Tree.record? at h
  split at h
  · split at h
    · cases h
    · split at h
      · obtain rfl := Option.some.inj h
        rfl
      · cases h
  · split at h
    · obtain rfl := Option.some.inj h
      rfl
    · cases h
  · cases h

namespace Record

variable {r : Record} {decode : Decoder α} {P : Nat → α → Prop} {name : String} {a : α}

theorem required_yields (h : decode.Yields P) (ha : r.required name decode = some a) :
    P r.depth a := by
  obtain ⟨t, -, ht⟩ := Option.bind_eq_some_iff.mp ha
  exact h _ _ _ ht

theorem withDefault_yields {default : α} (h : decode.Yields P)
    (ha : r.withDefault name default decode = some a) (hdefault : P r.depth default) :
    P r.depth a := by
  rw [withDefault] at ha
  split at ha
  · exact h _ _ _ ha
  · obtain rfl := Option.some.inj ha
    exact hdefault

end Record

end Retrace.Json
