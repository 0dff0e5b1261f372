import Retrace.Proofs.Json.Decoding
import Retrace.Proofs.Trace.Completed
import Retrace.Proofs.Trace.Reading
/-!
# Trace documents survive being read

A trace without doubles that nests no deeper than a document may reads back from its text as it was
(`Trace.decode?_text`): record by record, each field is found under its name, and a part that was left
out means what its default means. Of a trace that was read more is known: its places and integers fit
64 bits, its objects are sorted, and its values leave room for the seven arrays and objects around them
(`Trace.decoder_yields`). So writing a trace that was read and reading it again changes nothing.
-/

namespace Retrace

open Json (Value Tree Decoder Record)

/-! ## Writing and reading -/

theorem ValueKind.decoder_reads (k : ValueKind) : decoder.Reads (.text k.name) k := by
  intro _ _
  cases k <;> rfl

theorem Variable.decoder_reads {v : Variable} (h : ∀ x ∈ v.value, x.Proper ∧ x.Integral) :
    decoder.Reads v.tree v := by
  intro depth hn
  unfold tree at hn ⊢
  obtain ⟨rest, hr, hfits⟩ := Tree.record?_record ["name", "value", "type", "display"]
    (by cases v.value <;> simp) (by cases v.value <;> simp) hn
  have hname := hfits.required "name" rfl (Decoder.reads_text v.name)
  have hvalue := hfits.optional "value" (by cases v.value <;> rfl : _ = v.value.map Value.tree)
    fun x hx => Decoder.reads_value (h x hx).1 (h x hx).2
  have hkind := hfits.withDefault "type" (by cases v.value <;> rfl) v.kind.decoder_reads .undefined
  have hdisplay := hfits.withDefault "display" (by cases v.value <;> rfl)
    (Decoder.reads_text v.display) ""
  simp only [decoder, hr, hname, hvalue, hkind, hdisplay, Option.bind_eq_bind, Option.bind_some]

theorem Scope.decoder_reads {s : Scope}
    (h : ∀ v ∈ s.bindings, ∀ x ∈ v.value, x.Proper ∧ x.Integral) : decoder.Reads s.tree s := by
  intro depth hn
  unfold tree at hn ⊢
  obtain ⟨rest, hr, hfits⟩ := Tree.record?_record ["name", "variables"] (by simp) (by simp) hn
  have hname := hfits.required "name" rfl (Decoder.reads_text s.name)
  have hbindings := hfits.withDefault "variables" rfl
    (Decoder.reads_list fun v hv => Variable.decoder_reads (h v hv)) []
  simp only [decoder, hr, hname, hbindings, Option.bind_eq_bind, Option.bind_some]

/-- A line or a column. -/
theorem reads_place {place : Option Nat} (h : ∀ n ∈ place, n < 2 ^ 64) :
    (Decoder.option .nat).Reads (.orNull .nat place) place :=
  Decoder.reads_orNull Tree.nat_ne_null fun n hn => Decoder.reads_nat (h n hn)

/-- The line and the column of a frame. -/
def Frame.places (f : Frame) : List Nat := f.line.toList ++ f.column.toList

theorem Frame.decoder_reads {f : Frame} (h : ∀ n ∈ f.places, n < 2 ^ 64) :
    decoder.Reads f.tree f := by
  intro depth hn
  unfold tree at hn ⊢
  obtain ⟨rest, hr, hfits⟩ := Tree.record?_record ["function_name", "arguments", "line", "column"]
    (by simp) (by simp) hn
  have hname := hfits.required "function_name" rfl (Decoder.reads_text f.functionName)
  have harguments := hfits.withDefault "arguments" rfl
    (Decoder.reads_list fun s _ => Decoder.reads_text s) []
  have hline := hfits.withDefault "line" rfl (reads_place fun n hn =>
    h n (List.mem_append_left _ (Option.mem_toList.mpr hn))) none
  have hcolumn := hfits.withDefault "column" rfl (reads_place fun n hn =>
    h n (List.mem_append_right _ (Option.mem_toList.mpr hn))) none
  simp only [decoder, hr, hname, harguments, hline, hcolumn, Option.bind_eq_bind, Option.bind_some]

namespace Entry

/-- The lines and columns of an entry and its frames. -/
def places (e : Entry) : List Nat :=
  e.line.toList ++ e.column.toList ++ e.frames.flatMap Frame.places

theorem mem_places {e : Entry} {n : Nat} :
    n ∈ e.places ↔ n ∈ e.line ∨ n ∈ e.column ∨ ∃ f ∈ e.frames, n ∈ f.places := by
  simp only [places, List.mem_append, Option.mem_toList, Option.mem_def, List.mem_flatMap, or_assoc]

theorem decoder_reads {e : Entry} (hplaces : ∀ n ∈ e.places, n < 2 ^ 64)
    (hvalues : ∀ v ∈ e.bindings, ∀ x ∈ v.value, x.Proper ∧ x.Integral) :
    decoder.Reads e.tree e := by
  intro depth hn
  unfold tree at hn ⊢
  obtain ⟨rest, hr, hfits⟩ := Tree.record?_record
    ["line", "column", "node_type", "call_stack", "variables", "error"]
    (by cases e.nodeType <;> cases e.error <;> simp)
    (by cases e.nodeType <;> cases e.error <;> simp) hn
  have hline := hfits.withDefault "line" rfl (reads_place fun n hn =>
    hplaces n (mem_places.mpr (.inl hn))) none
  have hcolumn := hfits.withDefault "column" rfl (reads_place fun n hn =>
    hplaces n (mem_places.mpr (.inr (.inl hn)))) none
  have hnode := hfits.optional "node_type"
    (by cases e.nodeType <;> cases e.error <;> rfl : _ = e.nodeType.map Tree.text)
    fun s _ => (Decoder.reads_text s).option nofun
  have hframes := hfits.withDefault "call_stack" (by cases e.nodeType <;> rfl)
    (Decoder.reads_list fun f hf => Frame.decoder_reads fun n hn =>
      hplaces n (mem_places.mpr (.inr (.inr ⟨f, hf, hn⟩)))) []
  have hscopes := hfits.withDefault "variables" (by cases e.nodeType <;> rfl)
    (Decoder.reads_list fun s hs => Scope.decoder_reads fun v hv =>
      hvalues v (List.mem_flatMap.mpr ⟨s, hs, hv⟩)) []
  have herror := hfits.optional "error"
    (by cases e.nodeType <;> cases e.error <;> rfl : _ = e.error.map Tree.text)
    fun s _ => (Decoder.reads_text s).option nofun
  simp only [decoder, hr, hline, hcolumn, hnode, hframes, hscopes, herror, Option.bind_eq_bind,
    Option.bind_some]

end Entry

namespace Trace

/-- All lines and columns of a trace. -/
def places (t : Trace) : List Nat := t.entries.toList.flatMap Entry.places

/-- Whether a trace is one that can be held at all: lines and columns fit 64 bits, and so do the
integers of its values, whose objects are sorted. -/
structure Proper (t : Trace) : Prop where
  places : ∀ n ∈ t.places, n < 2 ^ 64
  values : ∀ x ∈ t.values, x.Proper

theorem mem_values {t : Trace} {x : Value} :
    x ∈ t.values ↔ ∃ e ∈ t.entries.toList, ∃ v ∈ e.bindings, x ∈ v.value := by
  simp only [values, bindings, List.mem_filterMap, List.mem_flatMap, Option.mem_def]
  constructor
  · rintro ⟨v, ⟨e, he, hv⟩, hx⟩
    exact ⟨e, he, v, hv, hx⟩
  · rintro ⟨e, he, v, hv, hx⟩
    exact ⟨v, ⟨e, he, hv⟩, hx⟩

theorem decoder_reads {t : Trace} (h : t.Proper) (hint : ∀ x ∈ t.values, x.Integral) :
    decoder.Reads t.tree t := by
  intro depth hn
  unfold tree at hn ⊢
  obtain ⟨rest, hr, hfits⟩ := Tree.record?_record ["steps"] (by simp) (by simp) hn
  have hentries := hfits.required "steps" rfl <| Decoder.reads_list fun e he =>
    Entry.decoder_reads (fun n hn => h.places n (List.mem_flatMap.mpr ⟨e, he, hn⟩))
      fun v hv x hx =>
        have hx' : x ∈ t.values := mem_values.mpr ⟨e, he, v, hv, hx⟩
        ⟨h.values x hx', hint x hx'⟩
  simp only [decoder, hr, hentries, Option.bind_eq_bind, Option.bind_some, Array.toArray_toList]

theorem decode?_text {t : Trace} (hnesting : t.tree.nesting ≤ Json.maxDepth) (h : t.Proper)
    (hint : ∀ x ∈ t.values, x.Integral) : Json.decode? decoder t.text = some t := by
  rw [Json.decode?, text, Tree.parse?_pretty, Option.bind_some, decoder_reads h hint _ hnesting]

end Trace

/-! ## How deep a trace nests -/

@[simp] theorem nesting_place (place : Option Nat) :
    (Tree.orNull Tree.nat place).nesting = 0 := by
  cases place <;> rfl

theorem Variable.nesting_tree_le {v : Variable} {n : Nat}
    (h : ∀ x ∈ v.value, x.tree.nesting ≤ n) : v.tree.nesting ≤ n + 1 := by
  unfold tree
  rw [Tree.nesting_record_le]
  cases hv : v.value with
  | none => simp
  | some x => simp [h x hv]

theorem Scope.nesting_tree_le {s : Scope} {n : Nat}
    (h : ∀ v ∈ s.bindings, ∀ x ∈ v.value, x.tree.nesting ≤ n) : s.tree.nesting ≤ n + 3 := by
  have hbindings : (Tree.array (s.bindings.map Variable.tree)).nesting ≤ n + 2 :=
    Tree.nesting_array_le.mpr (List.forall_mem_map.mpr fun v hv => Variable.nesting_tree_le (h v hv))
  unfold tree
  rw [Tree.nesting_record_le]
  simp [hbindings]

theorem Frame.nesting_tree_le (f : Frame) : f.tree.nesting ≤ 2 := by
  have harguments : (Tree.array (f.arguments.map .text)).nesting ≤ 1 :=
    Tree.nesting_array_le.mpr (List.forall_mem_map.mpr fun s _ => Nat.le_of_eq (Tree.nesting_text s))
  unfold tree
  rw [Tree.nesting_record_le]
  simp [harguments]

theorem Entry.nesting_tree_le {e : Entry} {n : Nat}
    (h : ∀ v ∈ e.bindings, ∀ x ∈ v.value, x.tree.nesting ≤ n) : e.tree.nesting ≤ n + 5 := by
  have hframes : (Tree.array (e.frames.map Frame.tree)).nesting ≤ n + 4 :=
    Tree.nesting_array_le.mpr (List.forall_mem_map.mpr fun f _ => by have := f.nesting_tree_le; omega)
  have hscopes : (Tree.array (e.scopes.map Scope.tree)).nesting ≤ n + 4 :=
    Tree.nesting_array_le.mpr (List.forall_mem_map.mpr fun s hs =>
      Scope.nesting_tree_le fun v hv => h v (List.mem_flatMap.mpr ⟨s, hs, hv⟩))
  unfold tree
  rw [Tree.nesting_record_le]
  cases e.nodeType <;> cases e.error <;> simp [hframes, hscopes]

/-- Around a value of a trace there are seven arrays and objects. -/
theorem Trace.nesting_tree_le {t : Trace} {n : Nat} (h : ∀ x ∈ t.values, x.tree.nesting ≤ n) :
    t.tree.nesting ≤ n + 7 := by
  have hentries : (Tree.array (t.entries.toList.map Entry.tree)).nesting ≤ n + 6 :=
    Tree.nesting_array_le.mpr (List.forall_mem_map.mpr fun e he =>
      Entry.nesting_tree_le fun v hv x hx => h x (mem_values.mpr ⟨e, he, v, hv, hx⟩))
  unfold tree
  rw [Tree.nesting_record_le]
  simp [hentries]

/-! ## What is known of a trace that was read -/

theorem Variable.decoder_yields : decoder.Yields fun depth v =>
    ∀ x ∈ v.value, x.Proper ∧ x.tree.nesting + 1 ≤ depth := by
  intro depth t v h
  simp only [decoder, Option.bind_eq_bind, Option.bind_eq_some_iff, Option.some.injEq] at h
  obtain ⟨r, hr, name, -, value, hvalue, kind, -, display, -, rfl⟩ := h
  obtain rfl := Tree.record?_depth hr
  have hreads : Decoder.Yields (fun depth t => (t.value? depth).map some)
      fun depth o => ∀ x ∈ o, x.Proper ∧ x.tree.nesting ≤ depth := by
    intro depth t o ho x hx
    obtain ⟨v, hv, rfl⟩ := Option.map_eq_some_iff.mp ho
    obtain rfl := Option.some.inj hx
    exact Tree.value?_sound hv
  intro x hx
  obtain ⟨hproper, hnesting⟩ := Record.withDefault_yields hreads hvalue nofun x hx
  exact ⟨hproper, Nat.succ_le_succ hnesting⟩

theorem Scope.decoder_yields : decoder.Yields fun depth s =>
    ∀ v ∈ s.bindings, ∀ x ∈ v.value, x.Proper ∧ x.tree.nesting + 3 ≤ depth := by
  intro depth t s h
  simp only [decoder, Option.bind_eq_bind, Option.bind_eq_some_iff, Option.some.injEq] at h
  obtain ⟨r, hr, name, -, bindings, hbindings, rfl⟩ := h
  obtain rfl := Tree.record?_depth hr
  intro v hv x hx
  obtain ⟨rest, hrest, hvariable⟩ :=
    Record.withDefault_yields Variable.decoder_yields.list hbindings nofun v hv
  obtain ⟨hproper, hnesting⟩ := hvariable x hx
  exact ⟨hproper, by omega⟩

theorem Frame.decoder_yields : decoder.Yields fun _ f => ∀ n ∈ f.places, n < 2 ^ 64 := by
  intro depth t f h
  simp only [decoder, Option.bind_eq_bind, Option.bind_eq_some_iff, Option.some.injEq] at h
  obtain ⟨r, -, name, -, arguments, -, line, hline, column, hcolumn, rfl⟩ := h
  intro n hn
  rcases List.mem_append.mp hn with hn | hn
  · exact Record.withDefault_yields Decoder.nat_yields.option hline nofun n (Option.mem_toList.mp hn)
  · exact Record.withDefault_yields Decoder.nat_yields.option hcolumn nofun n (Option.mem_toList.mp hn)

theorem Entry.decoder_yields : decoder.Yields fun depth e => (∀ n ∈ e.places, n < 2 ^ 64) ∧
    ∀ v ∈ e.bindings, ∀ x ∈ v.value, x.Proper ∧ x.tree.nesting + 5 ≤ depth := by
  intro depth t e h
  simp only [decoder, Option.bind_eq_bind, Option.bind_eq_some_iff, Option.some.injEq] at h
  obtain ⟨r, hr, line, hline, column, hcolumn, nodeType, -, frames, hframes, scopes, hscopes, error,
    -, rfl⟩ := h
  obtain rfl := Tree.record?_depth hr
  constructor
  · intro n hn
    rcases mem_places.mp hn with hn | hn | ⟨f, hf, hn⟩
    · exact Record.withDefault_yields Decoder.nat_yields.option hline nofun n hn
    · exact Record.withDefault_yields Decoder.nat_yields.option hcolumn nofun n hn
    · obtain ⟨-, -, hframe⟩ :=
        Record.withDefault_yields Frame.decoder_yields.list hframes nofun f hf
      exact hframe n hn
  · intro v hv x hx
    obtain ⟨s, hs, hv⟩ := List.mem_flatMap.mp hv
    obtain ⟨rest, hrest, hscope⟩ :=
      Record.withDefault_yields Scope.decoder_yields.list hscopes nofun s hs
    obtain ⟨hproper, hnesting⟩ := hscope v hv x hx
    exact ⟨hproper, by omega⟩

namespace Trace

theorem decoder_yields : decoder.Yields fun depth t =>
    t.Proper ∧ ∀ x ∈ t.values, x.tree.nesting + 7 ≤ depth := by
  intro depth tree t h
  simp only [decoder, Option.bind_eq_bind, Option.bind_eq_some_iff, Option.some.injEq] at h
  obtain ⟨r, hr, entries, hentries, rfl⟩ := h
  obtain rfl := Tree.record?_depth hr
  have hyields := Record.required_yields Entry.decoder_yields.list hentries
  refine ⟨⟨fun n hn => ?_, fun x hx => ?_⟩, fun x hx => ?_⟩
  · obtain ⟨e, he, hn⟩ := List.mem_flatMap.mp hn
    obtain ⟨-, -, hplaces, -⟩ := hyields e he
    exact hplaces n hn
  · obtain ⟨e, he, v, hv, hx⟩ := mem_values.mp hx
    obtain ⟨rest, -, -, hvalues⟩ := hyields e he
    exact (hvalues v hv x hx).1
  · obtain ⟨e, he, v, hv, hx⟩ := mem_values.mp hx
    obtain ⟨rest, hrest, -, hvalues⟩ := hyields e he
    have hnesting := (hvalues v hv x hx).2
    omega

theorem places_completed (t : Trace) : t.completed.places = t.places := by
  unfold places completed
  rw [Array.toList_map, List.flatMap_map]
  rfl

/-- A trace that was read can be written and read again. -/
theorem proper_of_read {source : String} {t : Trace} (h : read source = .ok t) :
    t.Proper ∧ t.tree.nesting ≤ Json.maxDepth := by
  obtain ⟨u, hu, -, rfl⟩ := exists_of_read h
  obtain ⟨tree, -, htree⟩ := Option.bind_eq_some_iff.mp hu
  obtain ⟨hproper, hnesting⟩ := decoder_yields _ _ _ htree
  -- a value that was kept was read under seven arrays and objects, and the text of a function is flat
  have hvalues : ∀ x ∈ u.completed.values, x.Proper ∧ x.tree.nesting ≤ Json.maxDepth - 7 := by
    intro x hx
    rcases mem_values_completed hx with hx | rfl
    · exact ⟨hproper.values x hx, Nat.le_of_add_le_add_right (hnesting x hx)⟩
    · exact ⟨trivial, Nat.zero_le _⟩
  exact ⟨⟨u.places_completed ▸ hproper.places, fun x hx => (hvalues x hx).1⟩,
    nesting_tree_le fun x hx => (hvalues x hx).2⟩

/-! ## The round trip -/

theorem read_text_eq {t : Trace} (hnesting : t.tree.nesting ≤ Json.maxDepth) (h : t.Proper)
    (hint : ∀ x ∈ t.values, x.Integral) : read t.text
      = if t.entries.isEmpty then .error (.load noEntries) else .ok t.completed := by
  rw [read, decode?_text hnesting h hint]

/-- Nothing is left to complete in a trace that was read, so it is read again as it is. -/
theorem read_text_of_read {source : String} {t : Trace} (h : read source = .ok t)
    (hint : ∀ x ∈ t.values, x.Integral) : read t.text = .ok t := by
  obtain ⟨hproper, hnesting⟩ := proper_of_read h
  have hentries : t.entries.isEmpty = false := by
    have hsize : t.entries.size ≠ 0 := Nat.ne_of_gt (size_pos_of_read h)
    simpa [Array.isEmpty] using hsize
  have hcompleted : t.completed = t := by
    obtain ⟨u, -, -, rfl⟩ := exists_of_read h
    exact u.completed_completed
  rw [read_text_eq hnesting hproper hint, hentries, hcompleted]
  rfl

/-- Trace documents survive a round trip, as long as the values of the variables are without doubles.

A trace that nests no deeper than a document may is denoted by its own text, every part of it; reading
the text gives the trace completed, or the refusal of a trace without entries. What was completed is
complete: every variable has a text to show, and lines and depth count as before. So a trace that was
read, of which nothing else needs to be known, is read again from its text as it is. -/
theorem document_round_trip :
    (∀ t : Trace, t.Proper → t.tree.nesting ≤ Json.maxDepth → (∀ x ∈ t.values, x.Integral) →
      Json.decode? decoder t.text = some t ∧
      read t.text = if t.entries.isEmpty then .error (.load noEntries) else .ok t.completed) ∧
    (∀ t : Trace, t.completed.completed = t.completed ∧
      (∀ v ∈ t.completed.bindings, v.display ≠ "") ∧
      t.completed.lineCount = t.lineCount ∧ t.completed.maxDepth = t.maxDepth) ∧
    (∀ (source : String) (t : Trace), read source = .ok t → (∀ x ∈ t.values, x.Integral) →
      read t.text = .ok t) := by
  refine ⟨fun t h hnesting hint => ?_, fun t => ?_, fun source t hread hint => ?_⟩
  · exact ⟨decode?_text hnesting h hint, read_text_eq hnesting h hint⟩
  · exact ⟨t.completed_completed, fun v hv => display_of_mem_completed hv, t.lineCount_completed,
      t.maxDepth_completed⟩
  · exact read_text_of_read hread hint

/-- A line alone, then an entry in a call whose variables are undefined, an explicit null, an object and
a function recorded without its text. -/
def assorted : Trace := ⟨#[.ofLine 1,
  ⟨some 2, none, some "ReturnStatement", [⟨"f", ["1"], some 2, none⟩],
    [⟨"local", [
      ⟨"u", none, .undefined, ""⟩,
      ⟨"z", some .null, .null, "nothing"⟩,
      ⟨"o", some (.object [("a", .nat 1), ("b", .array [])]), .object, ""⟩,
      ⟨"f", some .null, .function, ""⟩]⟩],
    some "boom"⟩]⟩

theorem document_round_trip_of_assorted :
    (assorted.Proper ∧ assorted.tree.nesting ≤ Json.maxDepth ∧ ∀ x ∈ assorted.values, x.Integral) ∧
    read assorted.text = .ok assorted.completed ∧
    (∀ x ∈ assorted.completed.values, x.Integral) ∧
    read assorted.completed.text = .ok assorted.completed ∧
    assorted.completed.bindings.map Variable.display
      = ["undefined", "nothing", "\x7b\"a\":1,\"b\":[]\x7d", "[Function]"] := by
  have hvalues : assorted.values = [.null, .object [("a", .nat 1), ("b", .array [])], .null] := rfl
  have hproper : assorted.Proper := by
    have hsorted : Value.Sorted [("a", .nat 1), ("b", .array [])] := List.pairwise_pair.mpr (by decide)
    have hobject : Value.Proper (.object [("a", .nat 1), ("b", .array [])]) :=
      ⟨hsorted, ⟨by decide, by decide⟩, ⟨trivial, trivial⟩, trivial⟩
    refine ⟨by decide, ?_⟩
    rw [hvalues]
    simp only [List.forall_mem_cons]
    exact ⟨trivial, hobject, trivial, nofun⟩
  have hnesting : assorted.tree.nesting ≤ Json.maxDepth := by decide
  have hint : ∀ x ∈ assorted.values, x.Integral := by
    rw [hvalues]
    simp only [List.forall_mem_cons]
    exact ⟨trivial, ⟨trivial, trivial, ⟨trivial, trivial⟩, trivial⟩, trivial, nofun⟩
  have hint' : ∀ x ∈ assorted.completed.values, x.Integral := by
    intro x hx
    rcases mem_values_completed hx with hx | rfl
    · exact hint x hx
    · trivial
  have hread : read assorted.text = .ok assorted.completed :=
    (document_round_trip.1 assorted hproper hnesting hint).2
  have hagain : read assorted.completed.text = .ok assorted.completed :=
    document_round_trip.2.2 assorted.text assorted.completed hread hint'
  exact ⟨⟨hproper, hnesting, hint⟩, hread, hint', hagain, by decide +kernel⟩

end Trace

end Retrace
