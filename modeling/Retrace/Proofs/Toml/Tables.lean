import Retrace.Proofs.Toml.Spelling
/-!
# A document of tables is read as these tables

A table is its name and its members, which follow its header (`tableStatements`). Where no name and no
key stands twice, the tables of a document are put together as they were written (`parse?_of_spells`).
Each table is added behind those before it, and its members then go to the last table.
-/

namespace Retrace.Toml

/-! ## Members by their keys -/

section Lookup

variable {β γ : Type} {l l' : List (String × β)} {key : String} {m : String × β}

theorem lookup_map (l : List (String × β)) (f : β → γ) (key : String) :
    (l.map fun m => (m.1, f m.2)).lookup key = (l.lookup key).map f := by
  induction l with
  | nil => rfl
  | cons m l ih =>
    rw [List.map_cons, List.lookup_cons, List.lookup_cons, ih]
    split <;> rfl

theorem lookup_eq_none (h : key ∉ l.map Prod.fst) : l.lookup key = none := by
  rw [List.lookup_eq_none_iff]
  intro m hm
  rw [bne_iff_ne]
  rintro rfl
  exact h (List.mem_map_of_mem hm)

theorem mem_of_lookup {b : β} (h : l.lookup key = some b) : (key, b) ∈ l := by
  obtain ⟨l₁, l₂, rfl, -⟩ := List.lookup_eq_some_iff.mp h
  exact List.mem_append_right _ (.head _)

/-- Where no key stands twice, a key is not among those before it. -/
theorem not_mem_of_nodup (h : ((l ++ m :: l').map Prod.fst).Nodup) : m.1 ∉ l.map Prod.fst := by
  rw [List.map_append, List.map_cons, List.nodup_append] at h
  exact fun hmem => h.2.2 _ hmem _ (.head _) rfl

theorem lookup_of_mem (h : (l.map Prod.fst).Nodup) (hm : m ∈ l) : l.lookup m.1 = some m.2 := by
  obtain ⟨l₁, l₂, rfl⟩ := List.append_of_mem hm
  rw [List.lookup_append, lookup_eq_none (not_mem_of_nodup h), List.lookup_cons, beq_self_eq_true]
  rfl

end Lookup

/-! ## Putting tables together -/

/-- The statements that write a table. -/
def tableStatements (t : String × List (String × Value)) : List Statement :=
  .table ⟨[], t.1⟩ :: t.2.map fun m => .entry ⟨[], m.1⟩ m.2

/-- Members as they stand in a table that is being read. -/
def heldMembers (ms : List (String × Value)) : Members := ms.map fun m => (m.1, .value m.2)

/-- Tables as they stand in a document that is being read. -/
def heldTables (tables : List (String × List (String × Value))) : Members :=
  tables.map fun t => (t.1, .table .defined (heldMembers t.2))

theorem heldMembers_append (ms ms' : List (String × Value)) :
    heldMembers (ms ++ ms') = heldMembers ms ++ heldMembers ms' := List.map_append

theorem heldTables_append (tables tables' : List (String × List (String × Value))) :
    heldTables (tables ++ tables') = heldTables tables ++ heldTables tables' := List.map_append

theorem lookup_heldMembers (ms : List (String × Value)) (key : String) :
    (heldMembers ms).lookup key = (ms.lookup key).map Item.value := lookup_map ms Item.value key

theorem lookup_heldTables (tables : List (String × List (String × Value))) (name : String) :
    (heldTables tables).lookup name
      = (tables.lookup name).map fun ms => Item.table .defined (heldMembers ms) :=
  lookup_map tables (fun ms => Item.table .defined (heldMembers ms)) name

namespace Members

/-- Members before the key stay as they are. -/
theorem set_append {key : String} {item : Item} {ms : Members} (h : ms.lookup key = none)
    (rest : Members) : set key item (ms ++ rest) = ms ++ set key item rest := by
  induction ms with
  | nil => rfl
  | cons m ms ih =>
    obtain ⟨k, i⟩ := m
    rw [List.lookup_cons] at h
    split at h
    · cases h
    · next hne =>
      have hk : k ≠ key := fun he => by simp [he] at hne
      rw [List.cons_append, set, if_neg hk, ih h, List.cons_append]

theorem set_new {key : String} {item : Item} {ms : Members} (h : ms.lookup key = none) :
    ms.set key item = ms ++ [(key, item)] := by
  rw [← List.append_nil ms, set_append h, List.append_nil]
  rfl

theorem set_last {key : String} {item old : Item} {ms : Members} (h : ms.lookup key = none) :
    set key item (ms ++ [(key, old)]) = ms ++ [(key, item)] := by
  rw [set_append h, set, if_pos rfl]

theorem lookup_last {key : String} {item : Item} {ms : Members} (h : ms.lookup key = none) :
    (ms ++ [(key, item)]).lookup key = some item := by
  rw [List.lookup_append, h]
  simp

end Members

namespace Assembly

/-- The header of a table that is new opens an empty table behind the others. -/
theorem apply_header {name : String} {a : Assembly} (h : a.root.lookup name = none) :
    a.apply (.table ⟨[], name⟩) = some ⟨a.root ++ [(name, .table .defined [])], [name]⟩ := by
  simp only [apply, Members.within, Members.define, h, Members.set_new h, Option.map_some, Key.parts,
    List.nil_append]

/-- A member with a new key goes to the end of the last table. -/
theorem apply_member {name key : String} {v : Value} {root : Members} {done : List (String × Value)}
    (hname : root.lookup name = none) (hkey : key ∉ done.map Prod.fst) :
    apply ⟨root ++ [(name, .table .defined (heldMembers done))], [name]⟩ (.entry ⟨[], key⟩ v)
      = some ⟨root ++ [(name, .table .defined (heldMembers (done ++ [(key, v)])))], [name]⟩ := by
  have hnew : (heldMembers done).lookup key = none := by
    rw [lookup_heldMembers, lookup_eq_none hkey]
    rfl
  have hadd : (heldMembers done).extend key v [] = some (heldMembers (done ++ [(key, v)])) := by
    rw [Members.extend, Members.add?, hnew, heldMembers_append]
    rfl
  simp only [apply, Members.within, Members.lookup_last hname, hadd, Members.set_last hname,
    Option.map_some]

/-- So do several members, one after the other. -/
theorem foldlM_members {name : String} {root : Members} (hname : root.lookup name = none)
    (done ms : List (String × Value)) (hkeys : ((done ++ ms).map Prod.fst).Nodup) :
    (ms.map fun m => Statement.entry ⟨[], m.1⟩ m.2).foldlM apply
        ⟨root ++ [(name, .table .defined (heldMembers done))], [name]⟩
      = some ⟨root ++ [(name, .table .defined (heldMembers (done ++ ms)))], [name]⟩ := by
  induction ms generalizing done with
  | nil => simp
  | cons m ms ih =>
    obtain ⟨key, v⟩ := m
    have hkey : key ∉ done.map Prod.fst := not_mem_of_nodup hkeys
    have hcons : done ++ (key, v) :: ms = done ++ [(key, v)] ++ ms := by simp
    rw [hcons] at hkeys ⊢
    rw [List.map_cons, List.foldlM_cons, apply_member hname hkey]
    exact ih (done ++ [(key, v)]) hkeys

/-- Tables with new names are added behind the others. -/
theorem foldlM_tables (done tables : List (String × List (String × Value))) (here : List String)
    (hnames : ((done ++ tables).map Prod.fst).Nodup)
    (hkeys : ∀ t ∈ tables, (t.2.map Prod.fst).Nodup) :
    ∃ here', (tables.flatMap tableStatements).foldlM apply ⟨heldTables done, here⟩
      = some ⟨heldTables (done ++ tables), here'⟩ := by
  induction tables generalizing done here with
  | nil => exact ⟨here, by simp⟩
  | cons t tables ih =>
    obtain ⟨name, ms⟩ := t
    have hname : (heldTables done).lookup name = none := by
      rw [lookup_heldTables, lookup_eq_none (not_mem_of_nodup hnames)]
      rfl
    have hmembers := foldlM_members hname [] ms (hkeys (name, ms) (.head _))
    have hcons : done ++ (name, ms) :: tables = done ++ [(name, ms)] ++ tables := by simp
    rw [hcons] at hnames ⊢
    obtain ⟨here', hrest⟩ := ih (done ++ [(name, ms)]) [name] hnames fun t ht => hkeys t (.tail _ ht)
    refine ⟨here', ?_⟩
    have hfirst : (tableStatements (name, ms)).foldlM apply ⟨heldTables done, here⟩
        = some ⟨heldTables (done ++ [(name, ms)]), [name]⟩ := by
      rw [tableStatements, List.foldlM_cons, apply_header hname, heldTables_append]
      exact hmembers
    rw [List.flatMap_cons, List.foldlM_append, hfirst]
    exact hrest

end Assembly

theorem memberValues_eq_map (ms : Members) : memberValues ms = ms.map fun m => (m.1, m.2.toValue) := by
  induction ms with
  | nil => simp [memberValues]
  | cons m ms ih => simp [memberValues, ih]

theorem memberValues_heldTables (tables : List (String × List (String × Value))) :
    memberValues (heldTables tables) = tables.map fun t => (t.1, .table t.2) := by
  have hmembers : ∀ ms : List (String × Value), memberValues (heldMembers ms) = ms := by
    intro ms
    simp [memberValues_eq_map, heldMembers, Function.comp_def, Item.toValue]
  rw [memberValues_eq_map, heldTables]
  simp only [List.map_map, Function.comp_def, Item.toValue, hmembers]

/-- Without a byte order mark all of the text is read. -/
theorem parse?_of_head {s : List Char} (h : ∀ c ∈ s.head?, c.toNat ≠ 0xFEFF) :
    parse? (String.ofList s) = (readStatements (s.length + 1) [] s).bind fun sts =>
      (sts.foldlM Assembly.apply ⟨[], []⟩).bind fun a => some (memberValues a.root) := by
  rw [parse?, String.toList_ofList]
  cases s with
  | nil => rfl
  | cons c s =>
    simp only [if_neg (h c rfl)]
    rfl

/-- A text that spells tables with different names, each with different keys, is read as them. -/
theorem parse?_of_spells {tables : List (String × List (String × Value))}
    (hnames : (tables.map Prod.fst).Nodup) (hkeys : ∀ t ∈ tables, (t.2.map Prod.fst).Nodup)
    {s : List Char} (h : Spells s (tables.flatMap tableStatements)) :
    parse? (String.ofList s) = some (tables.map fun t => (t.1, .table t.2)) := by
  have hread := h.readStatements (s.length + 1) [] (Nat.lt_succ_self _)
  obtain ⟨here, happly⟩ := Assembly.foldlM_tables [] tables [] hnames hkeys
  have hvalues := memberValues_heldTables tables
  have hempty : heldTables [] = [] := rfl
  rw [parse?_of_head h.head_ne_mark, hread]
  rw [hempty] at happly
  simp only [List.reverse_nil, List.nil_append, Option.bind_some] at happly ⊢
  rw [happly, Option.bind_some, hvalues]

end Retrace.Toml
