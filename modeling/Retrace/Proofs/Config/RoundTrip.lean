import Retrace.Config.Document
import Retrace.Proofs.Toml.Tables
/-!
# A configuration reads back

A document of sections is read as its sections (`Toml.parse?_of_spells`), so a field of the
configuration is looked up where it was written, wherever that is, and is standard if it was left out.
`Config.WrittenAs` says of sections that they give a configuration in this sense. `Config.read_spelled`
is the main lemma: all documents that give a configuration are read alike, as the configuration or, if
it breaks a rule, as the first rule it breaks.
-/

namespace Retrace

open Toml (Statement Spells SpellsLine SpellsValue IsBare tableStatements lookup_map lookup_of_mem
  mem_of_lookup)

/-! ## Settings and sections -/

namespace Setting

/-- The value that a setting is read as. -/
def value : Setting → Toml.Value
  | number n => .integer n
  | switch on => .boolean on

/-- Whether a setting is within its type: numbers have 64 bits. -/
def Fits : Setting → Prop
  | number n => n < 2 ^ 64
  | switch _ => True

instance (x : Setting) : Decidable x.Fits :=
  match x with
  | number n => inferInstanceAs (Decidable (n < 2 ^ 64))
  | switch _ => isTrue trivial

theorem Fits.spells {x : Setting} (h : x.Fits) : SpellsValue x.text.toList x.value := by
  cases x with
  | number n =>
    have hn : n < 2 ^ 128 := Nat.lt_trans h (by decide)
    rw [text, decimalText, String.toList_ofList]
    exact .integer hn
  | switch on =>
    cases on with
    | true => exact .yes
    | false => exact .no

end Setting

namespace ConfigSection

/-- The table that a section is read as. -/
def table (s : ConfigSection) : String × List (String × Toml.Value) :=
  (s.name, s.settings.map fun p => (p.1, p.2.value))

/-- Sections as a document, a blank line between them. -/
def document (secs : List ConfigSection) : String := "\n".intercalate (secs.map text)

/-- The statements of a document of sections. -/
def statements (secs : List ConfigSection) : List Statement := secs.flatMap fun s => tableStatements s.table

/-- What sections give for a setting, if anything. -/
def setting? (secs : List ConfigSection) (name key : String) : Option Setting :=
  ((secs.map fun s => (s.name, s.settings)).lookup name).bind (·.lookup key)

/-- Whether the names in a section may stand without quotes and its settings are within their types. -/
def Plain (s : ConfigSection) : Prop := IsBare s.name ∧ ∀ p ∈ s.settings, IsBare p.1 ∧ p.2.Fits

theorem Plain.spells {s : ConfigSection} (hs : s.Plain) {rest : List Char} {sts : List Statement}
    (h : Spells rest sts) : Spells (s.text.toList ++ rest) (tableStatements s.table ++ sts) := by
  obtain ⟨name, settings⟩ := s
  obtain ⟨hname, hsettings⟩ := hs
  have hlines : Spells
      ((settings.flatMap fun p => p.1.toList ++ ([' '] ++ '=' :: ([' '] ++ p.2.text.toList)) ++ ['\n'])
        ++ rest)
      ((settings.map fun p => Statement.entry ⟨[], p.1⟩ p.2.value) ++ sts) := by
    clear hname
    induction settings with
    | nil => exact h
    | cons p settings ih =>
      obtain ⟨hkey, hfits⟩ := hsettings p (.head _)
      have hrest := ih fun p' hp' => hsettings p' (.tail _ hp')
      have hfirst := hrest.above (.entry hkey [' '] [' '] (by decide) (by decide) hfits.spells)
      simpa using hfirst
  have hheader := hlines.above (.header hname [] [] (by decide) (by decide))
  simpa [text, tableStatements, table, Function.comp_def, String.toList_join, List.flatMap_map]
    using hheader

theorem spells_document {secs : List ConfigSection} (h : ∀ s ∈ secs, s.Plain) :
    Spells (document secs).toList (statements secs) := by
  induction secs with
  | nil => exact .nil
  | cons s secs ih =>
    have hs : s.Plain := h s (.head _)
    have hrest := ih fun s' hs' => h s' (.tail _ hs')
    cases secs with
    | nil =>
      have hlast := hs.spells .nil
      simpa [document, statements] using hlast
    | cons s' secs =>
      have hnext := hs.spells (.newline (s := '\n' :: (document (s' :: secs)).toList) rfl hrest)
      simpa [document, statements, String.intercalate_cons_cons] using hnext

/-- Where no name and no key stands twice, a setting is found where it was written. -/
theorem setting?_of_mem {secs : List ConfigSection} (hnames : (secs.map (·.name)).Nodup)
    (hkeys : ∀ s ∈ secs, (s.settings.map Prod.fst).Nodup) {s : ConfigSection} (hs : s ∈ secs)
    {p : String × Setting} (hp : p ∈ s.settings) : setting? secs s.name p.1 = some p.2 := by
  have hmem : (s.name, s.settings) ∈ secs.map fun s => (s.name, s.settings) :=
    List.mem_map_of_mem hs
  have hfirsts : ((secs.map fun s => (s.name, s.settings)).map Prod.fst).Nodup := by
    rwa [List.map_map]
  rw [setting?, lookup_of_mem hfirsts hmem]
  exact lookup_of_mem (hkeys s hs) hp

theorem mem_of_setting? {secs : List ConfigSection} {name key : String} {x : Setting}
    (h : setting? secs name key = some x) : ∃ s ∈ secs, s.name = name ∧ (key, x) ∈ s.settings := by
  obtain ⟨settings, hsettings, hx⟩ := Option.bind_eq_some_iff.mp h
  obtain ⟨s, hs, he⟩ := List.mem_map.mp (mem_of_lookup hsettings)
  obtain ⟨rfl, rfl⟩ := Prod.mk.inj he
  exact ⟨s, hs, rfl, mem_of_lookup hx⟩

/-- The fields that the reader looks up are the settings that were written. -/
theorem exists_given (secs : List ConfigSection) (name : String) (names : List String) :
    ∃ given,
      GivenFields.ofSection? ((secs.map table).map fun t => (t.1, .table t.2)) name names = some given ∧
      ∀ key, given.lookup key = (setting? secs name key).map Setting.value := by
  have htable : ((secs.map table).map fun t => (t.1, Toml.Value.table t.2)).lookup name
      = ((secs.map fun s => (s.name, s.settings)).lookup name).map
        fun settings => .table (settings.map fun p => (p.1, p.2.value)) := by
    rw [← lookup_map, List.map_map, List.map_map]
    rfl
  unfold GivenFields.ofSection? setting?
  rw [htable]
  cases (secs.map fun s => (s.name, s.settings)).lookup name with
  | none => exact ⟨[], rfl, fun key => rfl⟩
  | some settings => exact ⟨_, rfl, lookup_map settings Setting.value⟩

end ConfigSection

/-! ## Configurations as sections -/

namespace Config

open ConfigSection (setting? document statements)

/-- Whether the fields of a configuration are within their types. -/
def Fits (c : Config) : Prop := ∀ s ∈ c.sections, ∀ p ∈ s.settings, p.2.Fits

instance (c : Config) : Decidable c.Fits :=
  inferInstanceAs (Decidable (∀ s ∈ c.sections, ∀ p ∈ s.settings, p.2.Fits))

theorem sections_names_nodup (c : Config) : (c.sections.map (·.name)).Nodup := by
  simp [sections]

theorem sections_keys_nodup (c : Config) : ∀ s ∈ c.sections, (s.settings.map Prod.fst).Nodup := by
  simp [sections]

theorem sections_bare (c : Config) :
    ∀ s ∈ c.sections, IsBare s.name ∧ ∀ p ∈ s.settings, IsBare p.1 := by
  simp only [sections, List.forall_mem_cons, List.not_mem_nil, false_implies, implies_true, and_true]
  decide

/-- Whether sections give a configuration: they hold some of its sections and settings, in any order,
and what they leave out is standard. -/
structure WrittenAs (d : Config) (secs : List ConfigSection) : Prop where
  names_nodup : (secs.map (·.name)).Nodup
  keys_nodup : ∀ s ∈ secs, (s.settings.map Prod.fst).Nodup
  written : ∀ s ∈ secs, ∃ t ∈ d.sections, t.name = s.name ∧ s.settings ⊆ t.settings
  omitted : ∀ t ∈ d.sections, ∀ p ∈ t.settings, setting? secs t.name p.1 = none →
    setting? standard.sections t.name p.1 = some p.2

/-- A configuration is written as all of its sections. -/
theorem writtenAs_sections (c : Config) : c.WrittenAs c.sections where
  names_nodup := c.sections_names_nodup
  keys_nodup := c.sections_keys_nodup
  written s hs := ⟨s, hs, rfl, List.Subset.refl _⟩
  omitted t ht p hp hnone := by
    have hsome := ConfigSection.setting?_of_mem c.sections_names_nodup c.sections_keys_nodup ht hp
    exact nomatch hnone.symm.trans hsome

namespace WrittenAs

variable {d : Config} {secs : List ConfigSection}

theorem plain (h : d.WrittenAs secs) (hd : d.Fits) : ∀ s ∈ secs, s.Plain := by
  intro s hs
  obtain ⟨t, ht, hname, hsettings⟩ := h.written s hs
  obtain ⟨hbare, hkeys⟩ := d.sections_bare t ht
  exact ⟨hname ▸ hbare, fun p hp => ⟨hkeys p (hsettings hp), hd t ht p (hsettings hp)⟩⟩

/-- A setting is found where it was written or among the standard ones. -/
theorem setting (h : d.WrittenAs secs) {t : ConfigSection} (ht : t ∈ d.sections)
    {p : String × Setting} (hp : p ∈ t.settings) :
    (setting? secs t.name p.1).or (setting? standard.sections t.name p.1) = some p.2 := by
  cases hx : setting? secs t.name p.1 with
  | none => exact h.omitted t ht p hp hx
  | some x =>
    -- what was written is what the configuration says there, and it says it once
    obtain ⟨s, hs, hname, hmem⟩ := ConfigSection.mem_of_setting? hx
    obtain ⟨t', ht', hname', hsettings⟩ := h.written s hs
    have hof := ConfigSection.setting?_of_mem d.sections_names_nodup d.sections_keys_nodup ht hp
    have hof' := ConfigSection.setting?_of_mem d.sections_names_nodup d.sections_keys_nodup ht'
      (hsettings hmem)
    rw [hname', hname] at hof'
    exact hof'.symm.trans hof

variable {t : ConfigSection} {key : String} {given : GivenFields}

/-- So a number is read as it was written, or as it is by default. -/
theorem number (h : d.WrittenAs secs) (hd : d.Fits) (ht : t ∈ d.sections) {n : Nat}
    (hp : (key, .number n) ∈ t.settings)
    (hgiven : ∀ key, given.lookup key = (setting? secs t.name key).map Setting.value) {default : Nat}
    (hdefault : setting? standard.sections t.name key = some (.number default)) :
    given.number key default = some n := by
  have hsetting := h.setting ht hp
  have hfits : n < 2 ^ 64 := hd t ht _ hp
  rw [hdefault] at hsetting
  unfold GivenFields.number
  rw [hgiven]
  cases hx : setting? secs t.name key with
  | none =>
    rw [hx] at hsetting
    obtain rfl := Setting.number.inj (Option.some.inj hsetting)
    rfl
  | some x =>
    rw [hx] at hsetting
    obtain rfl := Option.some.inj hsetting
    have hheld : 0 ≤ (n : Int) ∧ (n : Int) < (1 <<< 64 : Nat) := by
      rw [Nat.one_shiftLeft]
      omega
    exact if_pos hheld

theorem switch (h : d.WrittenAs secs) (ht : t ∈ d.sections) {on : Bool}
    (hp : (key, .switch on) ∈ t.settings)
    (hgiven : ∀ key, given.lookup key = (setting? secs t.name key).map Setting.value) {default : Bool}
    (hdefault : setting? standard.sections t.name key = some (.switch default)) :
    given.switch key default = some on := by
  have hsetting := h.setting ht hp
  rw [hdefault] at hsetting
  unfold GivenFields.switch
  rw [hgiven]
  cases hx : setting? secs t.name key with
  | none =>
    rw [hx] at hsetting
    obtain rfl := Setting.switch.inj (Option.some.inj hsetting)
    rfl
  | some x =>
    rw [hx] at hsetting
    obtain rfl := Option.some.inj hsetting
    rfl

/-- The tables of a document that gives a configuration are read as it. -/
theorem ofTables? (h : d.WrittenAs secs) (hd : d.Fits) :
    Config.ofTables? ((secs.map ConfigSection.table).map fun t => (t.1, .table t.2)) = some d := by
  -- part by part, each field by its place in the part
  obtain ⟨history, hhistory, hgiven⟩ :=
    ConfigSection.exists_given secs "history" ["max_history", "checkpoint_interval"]
  have hmax := h.number hd (.head _) (.head _) hgiven rfl
  have hinterval := h.number hd (.head _) (.tail _ (.head _)) hgiven rfl
  obtain ⟨playback, hplayback, hgiven⟩ := ConfigSection.exists_given secs "playback"
    ["speed_ms", "min_delay_ms", "max_delay_ms", "pause_poll_ms", "turbo"]
  have hspeed := h.number hd (.tail _ (.head _)) (.head _) hgiven rfl
  have hleast := h.number hd (.tail _ (.head _)) (.tail _ (.head _)) hgiven rfl
  have hmost := h.number hd (.tail _ (.head _)) (.tail _ (.tail _ (.head _))) hgiven rfl
  have hpoll := h.number hd (.tail _ (.head _)) (.tail _ (.tail _ (.tail _ (.head _)))) hgiven rfl
  have hturbo := h.switch (.tail _ (.head _)) (.tail _ (.tail _ (.tail _ (.tail _ (.head _))))) hgiven rfl
  obtain ⟨execution, hexecution, hgiven⟩ :=
    ConfigSection.exists_given secs "execution" ["max_micro_steps"]
  have hmicro := h.number hd (.tail _ (.tail _ (.head _))) (.head _) hgiven rfl
  obtain ⟨interpreter, hinterpreter, hgiven⟩ :=
    ConfigSection.exists_given secs "interpreter" ["max_steps", "max_stack_size"]
  have hsteps := h.number hd (.tail _ (.tail _ (.tail _ (.head _)))) (.head _) hgiven rfl
  have hstack := h.number hd (.tail _ (.tail _ (.tail _ (.head _)))) (.tail _ (.head _)) hgiven rfl
  simp only [Config.ofTables?, Option.bind_eq_bind, Option.bind_some, hhistory, hmax, hinterval,
    hplayback, hspeed, hleast, hmost, hpoll, hturbo, hexecution, hmicro, hinterpreter, hsteps, hstack]

end WrittenAs

/-! ## What can be read -/

/-- A number that is read has 64 bits. -/
theorem number_lt {given : GivenFields} {key : String} {default n : Nat} (hdefault : default < 2 ^ 64)
    (h : given.number key default = some n) : n < 2 ^ 64 := by
  unfold GivenFields.number at h
  split at h
  · exact Option.some.inj h ▸ hdefault
  · next i =>
    split at h
    · next hi =>
      rw [Nat.one_shiftLeft] at hi
      obtain rfl := Option.some.inj h
      omega
    · cases h
  · cases h

theorem fits_of_ofTables? {tables : List (String × Toml.Value)} {d : Config}
    (h : ofTables? tables = some d) : d.Fits := by
  obtain ⟨history, -, h⟩ := Option.bind_eq_some_iff.mp h
  obtain ⟨maxHistory, hmax, h⟩ := Option.bind_eq_some_iff.mp h
  obtain ⟨checkpointInterval, hinterval, h⟩ := Option.bind_eq_some_iff.mp h
  obtain ⟨playback, -, h⟩ := Option.bind_eq_some_iff.mp h
  obtain ⟨speedMs, hspeed, h⟩ := Option.bind_eq_some_iff.mp h
  obtain ⟨minDelayMs, hleast, h⟩ := Option.bind_eq_some_iff.mp h
  obtain ⟨maxDelayMs, hmost, h⟩ := Option.bind_eq_some_iff.mp h
  obtain ⟨pausePollMs, hpoll, h⟩ := Option.bind_eq_some_iff.mp h
  obtain ⟨turbo, -, h⟩ := Option.bind_eq_some_iff.mp h
  obtain ⟨execution, -, h⟩ := Option.bind_eq_some_iff.mp h
  obtain ⟨maxMicroSteps, hmicro, h⟩ := Option.bind_eq_some_iff.mp h
  obtain ⟨interpreter, -, h⟩ := Option.bind_eq_some_iff.mp h
  obtain ⟨maxSteps, hsteps, h⟩ := Option.bind_eq_some_iff.mp h
  obtain ⟨maxStackSize, hstack, he⟩ := Option.bind_eq_some_iff.mp h
  obtain rfl := Option.some.inj he
  simp only [Fits, sections, List.forall_mem_cons, List.not_mem_nil, false_implies, implies_true,
    and_true, Setting.Fits]
  exact ⟨⟨number_lt (by decide) hmax, number_lt (by decide) hinterval⟩,
    ⟨number_lt (by decide) hspeed, number_lt (by decide) hleast, number_lt (by decide) hmost,
      number_lt (by decide) hpoll⟩,
    number_lt (by decide) hmicro, number_lt (by decide) hsteps, number_lt (by decide) hstack⟩

/-- A configuration as it is read: with the first rule it breaks, if any. -/
def checked (c : Config) : Except ConfigFailure Config :=
  match c.violation? with
  | none => .ok c
  | some v => .error (.invalid v)

theorem read_of_ofToml? {text : String} {c : Config} (h : ofToml? text = some c) :
    read text = c.checked := by
  simp only [read, h, checked]
  cases c.violation? <;> rfl

/-- What is read is within its types and breaks no rule. -/
theorem of_read {text : String} {d : Config} (h : read text = .ok d) :
    d.Fits ∧ d.violation? = none := by
  cases hc : ofToml? text with
  | none =>
    rw [read, hc] at h
    cases h
  | some c =>
    rw [read_of_ofToml? hc, checked] at h
    cases hv : c.violation? with
    | none =>
      rw [hv] at h
      obtain rfl := Except.ok.inj h
      obtain ⟨tables, -, htables⟩ := Option.bind_eq_some_iff.mp hc
      exact ⟨fits_of_ofTables? htables, hv⟩
    | some v =>
      rw [hv] at h
      cases h

/-! ## Reading back -/

/-- All documents that give a configuration are read alike. -/
theorem read_spelled {d : Config} (hd : d.Fits) {secs : List ConfigSection} (h : d.WrittenAs secs)
    {s : List Char} (hs : Spells s (statements secs)) : read (String.ofList s) = d.checked := by
  have hnames : ((secs.map ConfigSection.table).map Prod.fst).Nodup := by
    rw [List.map_map]
    exact h.names_nodup
  have hkeys : ∀ t ∈ secs.map ConfigSection.table, (t.2.map Prod.fst).Nodup := by
    intro t ht
    obtain ⟨sec, hsec, rfl⟩ := List.mem_map.mp ht
    simpa [ConfigSection.table, Function.comp_def] using h.keys_nodup sec hsec
  have hspells : Spells s ((secs.map ConfigSection.table).flatMap tableStatements) := by
    rwa [List.flatMap_map]
  have hparse := Toml.parse?_of_spells hnames hkeys hspells
  refine read_of_ofToml? ?_
  rw [ofToml?, hparse, Option.bind_some]
  exact h.ofTables? hd

theorem read_document {d : Config} (hd : d.Fits) {secs : List ConfigSection} (h : d.WrittenAs secs) :
    read (document secs) = d.checked := by
  have hread := read_spelled hd h (ConfigSection.spells_document (h.plain hd))
  rwa [String.ofList_toList] at hread

/-- A configuration that is written out reads back if it breaks no rule, and with the first rule it
breaks otherwise. A configuration that has been read is read again from some of its settings, if what
is left out is standard: as the writer sets them, whatever the order of tables and keys, and with
blanks, empty lines and comments as one likes. -/
theorem read_written :
    (∀ c : Config, c.Fits → read c.toml =
      match c.violation? with
      | none => .ok c
      | some v => .error (.invalid v)) ∧
    ∀ (text : String) (d : Config), read text = .ok d →
      ∀ secs, d.WrittenAs secs → read (document secs) = .ok d ∧
        ∀ s, Spells s (statements secs) → read (String.ofList s) = .ok d := by
  constructor
  · intro c hc
    exact read_document hc c.writtenAs_sections
  · intro text d hread secs h
    obtain ⟨hd, hvalid⟩ := of_read hread
    have hchecked : d.checked = .ok d := by rw [checked, hvalid]
    exact ⟨(read_document hd h).trans hchecked, fun s hs => (read_spelled hd h hs).trans hchecked⟩

/-- A history of three in turbo mode, written out in full and then with these two settings alone, the
later table first. -/
theorem read_written_of_turbo :
    let c := (standard.withMaxHistory 3).withTurbo true
    read c.toml = .ok c ∧
      read "[playback]\nturbo = true\n\n[history]\nmax_history = 3\n" = .ok c ∧
      read "# short\n[playback]\n turbo=true\n[history]\nmax_history = 3" = .ok c := by
  intro c
  have hd : c.Fits := by decide +kernel
  have hread : read c.toml = .ok c := read_written.1 c hd
  have hsecs : c.WrittenAs
      [⟨"playback", [("turbo", .switch true)]⟩, ⟨"history", [("max_history", .number 3)]⟩] :=
    ⟨by decide +kernel, by decide +kernel, by decide +kernel, by decide +kernel⟩
  obtain ⟨hdocument, hspelled⟩ := read_written.2 c.toml c hread _ hsecs
  -- the same settings, set with a comment, an indented line and no break at the end
  have hlast := Spells.line (s := []) (.entry (show IsBare "max_history" by decide) [' '] [' ']
    (by decide) (by decide) (.integer (n := 3) (by decide))) rfl .nil
  have hhistory := hlast.above
    (.header (show IsBare "history" by decide) [] [] (by decide) (by decide))
  have hturbo := hhistory.above
    (.entry (show IsBare "turbo" by decide) [] [] (by decide) (by decide) .yes)
  have hplayback := (Spells.blank (c := ' ') rfl hturbo).above
    (.header (show IsBare "playback" by decide) [] [] (by decide) (by decide))
  have hcomment := Spells.comment (t := " short".toList) (by simp [Toml.isForbidden]) (Or.inr rfl)
    (.newline (s := '\n' :: _) rfl hplayback)
  refine ⟨hread, (congrArg read ?_).trans hdocument, (congrArg read ?_).trans (hspelled _ hcomment)⟩
  · decide +kernel
  · decide +kernel

end Config

end Retrace
