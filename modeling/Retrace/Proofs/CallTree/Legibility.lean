import Retrace.Proofs.CallTree.Drawing
import Mathlib.Data.List.Forall2
/-!
# A printed forest can be read

If no label has a line break in it or begins like a part of the drawing, then the text of a forest tells
its rows apart, and of each row how far it is indented and what its call says (`readMarks_render`). That is
one number and one text for each call, in preorder. They determine the forest: the calls below a call are
those that follow it with greater numbers, up to the first that has none (`alike_of_marks`). So two
forests print the same exactly if they have the same shape and the same text at every call. The steps and
the numbers of the calls, which are not printed, may differ.
-/

namespace Retrace

namespace CallSummary

/-- Every label has parentheses. -/
theorem toList_label_ne_nil (c : CallSummary) : c.label.toList ≠ [] := by
  have hhead : (c.name ++ "(" ++ c.arguments ++ ")").toList ≠ [] := by simp
  intro h
  refine hhead ?_
  rw [label] at h
  split at h
  next v hv =>
    split at h
    next =>
      rw [String.toList_append, String.toList_append] at h
      exact (List.append_eq_nil_iff.mp (List.append_eq_nil_iff.mp h).1).1
    next => exact h
  next => exact h

theorem head?_caption (c : CallSummary) : c.caption.toList.head? = c.label.toList.head? := by
  rw [caption, String.toList_append]
  exact List.head?_append_of_ne_nil _ c.toList_label_ne_nil

end CallSummary

namespace CallTree

/-! ## Forests that look alike -/

/-- Whether two trees have the same shape and the same text at every call. -/
inductive Alike : CallTree → CallTree → Prop where
  | node {c d : CallSummary} {ts us : List CallTree} (hcaption : c.caption = d.caption)
      (hbelow : List.Forall₂ Alike ts us) : Alike (node c ts) (node d us)

mutual

/-- Trees that look alike are printed alike, wherever they stand. -/
theorem Alike.map_text_rows : ∀ {t u : CallTree}, Alike t u → ∀ (around : List Bool)
    (later : Option Bool), (rows around later t).map Row.text = (rows around later u).map Row.text
  | node c ts, node d us, .node hcaption hbelow, around, later => by
    rw [rows, rows, List.map_cons, List.map_cons, Row.text, Row.text, hcaption,
      map_text_rowsBelow hbelow]

theorem map_text_rowsBelow : ∀ {ts us : List CallTree}, List.Forall₂ Alike ts us →
    ∀ (around : List Bool), (rowsBelow around ts).map Row.text = (rowsBelow around us).map Row.text
  | [], [], .nil, around => rfl
  | t :: ts, u :: us, .cons hfirst hrest, around => by
    have hlater : ts.isEmpty = us.isEmpty := by
      rw [Bool.eq_iff_iff, List.isEmpty_iff_length_eq_zero, List.isEmpty_iff_length_eq_zero,
        hrest.length_eq]
    rw [rowsBelow, rowsBelow, List.map_append, List.map_append, hlater,
      Alike.map_text_rows hfirst, map_text_rowsBelow hrest]

end

theorem render_eq_of_alike {ts us : List CallTree} (h : List.Forall₂ Alike ts us) :
    render ts = render us := by
  rw [render_eq_rows, render_eq_rows, forestRows, forestRows]
  induction h with
  | nil => rfl
  | cons hfirst hrest ih =>
    rw [List.flatMap_cons, List.flatMap_cons, List.map_append, List.map_append, String.join_append,
      String.join_append, hfirst.map_text_rows, ih]

/-! ## The marks of a forest -/

/-- How far a call is indented, and its text. -/
abbrev Mark : Type := Nat × String

mutual

/-- The marks of the calls of a tree, the first one indented as given. -/
def marks (depth : Nat) : CallTree → List Mark
  | node c ts => (depth, c.caption) :: marksAll (depth + 1) ts

def marksAll (depth : Nat) : List CallTree → List Mark
  | [] => []
  | t :: ts => marks depth t ++ marksAll depth ts

end

/-- Whether some marks do not begin with one that is indented as far as given. -/
def Ends (depth : Nat) (rest : List Mark) : Prop := ∀ m ∈ rest.head?, m.1 < depth

theorem ends_nil (depth : Nat) : Ends depth [] := by
  intro m hm
  cases hm

theorem not_ends_marks {depth : Nat} (t : CallTree) (rest : List Mark) :
    ¬Ends depth (marks depth t ++ rest) := by
  intro h
  obtain ⟨c, ts⟩ := t
  rw [marks] at h
  exact absurd (h _ rfl) (Nat.lt_irrefl depth)

/-- Siblings end what stands below the one before them. -/
theorem Ends.append_marksAll {depth : Nat} {rest : List Mark} (h : Ends depth rest)
    (ts : List CallTree) : Ends (depth + 1) (marksAll depth ts ++ rest) := by
  intro m hm
  cases ts with
  | nil => exact Nat.lt_succ_of_lt (h m hm)
  | cons t ts =>
    obtain ⟨c, us⟩ := t
    rw [marksAll, marks] at hm
    obtain rfl := Option.some.inj hm
    exact Nat.lt_succ_self depth

mutual

/-- The marks of a tree tell where it ends and what it looks like. The induction is on the tree. -/
theorem alike_of_marks : ∀ (t u : CallTree) (depth : Nat) {rest rest' : List Mark},
    Ends (depth + 1) rest → Ends (depth + 1) rest' →
    marks depth t ++ rest = marks depth u ++ rest' → Alike t u ∧ rest = rest'
  | node c ts, node d us, depth, rest, rest', h, h', heq => by
    rw [marks, marks, List.cons_append, List.cons_append] at heq
    obtain ⟨hmark, hbelow⟩ := List.cons.inj heq
    obtain ⟨halike, hrest⟩ := alike_of_marksAll ts us (depth + 1) h h' hbelow
    exact ⟨.node (Prod.mk.inj hmark).2 halike, hrest⟩

/-- So do those of siblings, up to the first mark that is less indented. -/
theorem alike_of_marksAll : ∀ (ts us : List CallTree) (depth : Nat) {rest rest' : List Mark},
    Ends depth rest → Ends depth rest' →
    marksAll depth ts ++ rest = marksAll depth us ++ rest' →
    List.Forall₂ Alike ts us ∧ rest = rest'
  | [], [], depth, rest, rest', h, h', heq => ⟨.nil, heq⟩
  | [], u :: us, depth, rest, rest', h, h', heq => by
    rw [marksAll, marksAll, List.nil_append, List.append_assoc] at heq
    rw [heq] at h
    exact absurd h (not_ends_marks u _)
  | t :: ts, [], depth, rest, rest', h, h', heq => by
    rw [marksAll, marksAll, List.nil_append, List.append_assoc] at heq
    rw [← heq] at h'
    exact absurd h' (not_ends_marks t _)
  | t :: ts, u :: us, depth, rest, rest', h, h', heq => by
    rw [marksAll, marksAll, List.append_assoc, List.append_assoc] at heq
    obtain ⟨hfirst, hrest⟩ :=
      alike_of_marks t u depth (h.append_marksAll ts) (h'.append_marksAll us) heq
    obtain ⟨hbelow, hrest⟩ := alike_of_marksAll ts us depth h h' hrest
    exact ⟨.cons hfirst hbelow, hrest⟩

end

/-! ## Reading a row -/

/-- The characters that a drawing is made of. -/
def isOrnament (c : Char) : Bool := c == ' ' || c == '│' || c == '├' || c == '└' || c == '─'

/-- Whether a label has no line break, and does not begin like a part of a drawing. -/
structure Plain (label : String) : Prop where
  oneLine : '\n' ∉ label.toList
  head : ∀ c ∈ label.toList.head?, isOrnament c = false

instance (label : String) : Decidable (Plain label) :=
  decidable_of_iff ('\n' ∉ label.toList ∧ label.toList.head?.all (!isOrnament ·) = true) <| by
    simp only [Option.all_eq_true, Bool.not_eq_true']
    exact ⟨fun h => ⟨h.1, h.2⟩, fun h => ⟨h.oneLine, h.head⟩⟩

/-- Reads a row: while it begins like a part of the drawing, four characters are a column more. -/
def readMark : List Char → Mark
  | a :: b :: c :: d :: rest =>
    if isOrnament a then ((readMark rest).1 + 1, (readMark rest).2)
    else (0, String.ofList (a :: b :: c :: d :: rest))
  | s => (0, String.ofList s)

/-- Whether some characters are a part of a drawing. -/
def IsPart (part : List Char) : Prop := part.length = 4 ∧ part.all isOrnament = true

theorem IsPart.readMark_append {part : List Char} (h : IsPart part) (rest : List Char) :
    readMark (part ++ rest) = ((readMark rest).1 + 1, (readMark rest).2) := by
  obtain ⟨hlength, hornaments⟩ := h
  rw [List.all_eq_true] at hornaments
  match part, hlength with
  | [a, b, c, d], _ =>
    show readMark (a :: b :: c :: d :: rest) = _
    rw [readMark, if_pos (hornaments a List.mem_cons_self)]

/-- What does not begin like a part of a drawing is the text of the call. -/
theorem readMark_of_head {s : List Char} (h : ∀ c ∈ s.head?, isOrnament c = false) :
    readMark s = (0, String.ofList s) := by
  unfold readMark
  split
  next a b c d rest => rw [if_neg (Bool.not_eq_true _ ▸ h a rfl)]
  next => rfl

theorem readMark_parts {parts : List (List Char)} (hparts : ∀ part ∈ parts, IsPart part)
    {s : List Char} (hs : ∀ c ∈ s.head?, isOrnament c = false) :
    readMark (parts.flatten ++ s) = (parts.length, String.ofList s) := by
  induction parts with
  | nil => exact readMark_of_head hs
  | cons part parts ih =>
    have hfirst := hparts part List.mem_cons_self
    have hrest := ih fun p hp => hparts p (List.mem_cons_of_mem part hp)
    rw [List.flatten_cons, List.append_assoc, hfirst.readMark_append, hrest, List.length_cons]

namespace Row

/-- The mark of the call in a row. -/
def mark (r : Row) : Mark := ((r.around ++ r.later.toList).length, r.call.caption)

/-- The parts of the drawing before the call. -/
def parts (r : Row) : List (List Char) :=
  r.around.map (fun later => (if later then "│   " else "    ").toList)
    ++ r.later.toList.map (fun later => (connector (some later)).toList)

theorem isPart_of_mem {r : Row} {part : List Char} (h : part ∈ r.parts) : IsPart part := by
  have hcolumns : ∀ later : Bool, IsPart (if later then "│   " else "    ").toList := by
    unfold IsPart
    decide
  have hconnectors : ∀ later : Bool, IsPart (connector (some later)).toList := by
    unfold IsPart
    decide
  rcases List.mem_append.mp h with hcolumn | hconnector
  · obtain ⟨later, -, rfl⟩ := List.mem_map.mp hcolumn
    exact hcolumns later
  · obtain ⟨later, -, rfl⟩ := List.mem_map.mp hconnector
    exact hconnectors later

/-- A row before its line break. -/
def line (r : Row) : List Char := r.parts.flatten ++ r.call.caption.toList

theorem toList_text (r : Row) : r.text.toList = r.line ++ ['\n'] := by
  have hconnector : (connector r.later).toList
      = (r.later.toList.map fun later => (connector (some later)).toList).flatten := by
    cases r.later <;> simp [connector]
  rw [text, String.toList_append, String.toList_append, String.toList_append, hconnector, columns,
    String.toList_join, List.flatMap_map, line, parts, List.flatten_append, List.flatMap_def]
  rfl

theorem readMark_line {r : Row} (h : Plain r.call.label) : readMark r.line = r.mark := by
  have hhead : ∀ c ∈ r.call.caption.toList.head?, isOrnament c = false := by
    rw [r.call.head?_caption]
    exact h.head
  rw [line, readMark_parts (fun part => isPart_of_mem) hhead, String.ofList_toList, mark, parts,
    List.length_append, List.length_map, List.length_map, List.length_append]

/-- A row is one line, if its label is. -/
theorem not_mem_line {r : Row} (h : Plain r.call.label) : '\n' ∉ r.line := by
  intro hmem
  rcases List.mem_append.mp hmem with hpart | hcaption
  · obtain ⟨part, hpart, hbreak⟩ := List.mem_flatten.mp hpart
    exact absurd (List.all_eq_true.mp (isPart_of_mem hpart).2 _ hbreak) (by decide)
  · rw [CallSummary.caption, String.toList_append, List.mem_append] at hcaption
    rcases hcaption with hlabel | hmarker
    · exact h.oneLine hlabel
    · cases hactive : r.call.isActive <;> simp [hactive] at hmarker

end Row

mutual

theorem map_mark_rows : ∀ (t : CallTree) (around : List Bool) (later : Option Bool),
    (rows around later t).map Row.mark = marks (around ++ later.toList).length t
  | node c ts, around, later => by
    rw [rows, marks, List.map_cons, map_mark_rowsBelow ts, Row.mark]

theorem map_mark_rowsBelow : ∀ (ts : List CallTree) (around : List Bool),
    (rowsBelow around ts).map Row.mark = marksAll (around.length + 1) ts
  | [], around => rfl
  | t :: ts, around => by
    rw [rowsBelow, marksAll, List.map_append, map_mark_rows t, map_mark_rowsBelow ts,
      List.length_append]
    rfl

end

theorem map_mark_forestRows (roots : List CallTree) :
    (forestRows roots).map Row.mark = marksAll 0 roots := by
  induction roots with
  | nil => rfl
  | cons t roots ih =>
    rw [marksAll, ← ih, forestRows, List.flatMap_cons, List.map_append, map_mark_rows t]
    rfl

theorem map_call_forestRows (roots : List CallTree) :
    (forestRows roots).map Row.call = (preorderAll roots).map call := by
  induction roots with
  | nil => rfl
  | cons t roots ih =>
    rw [preorderAll, List.map_append, ← ih, forestRows, List.flatMap_cons, List.map_append,
      map_call_rows t]
    rfl

/-! ## Reading a forest -/

/-- The marks of the lines of a text; after the last line break there is no line. -/
def readMarks (text : String) : List Mark := (text.toList.splitOn '\n').dropLast.map readMark

theorem splitOn_rows {rs : List Row} (h : ∀ r ∈ rs, Plain r.call.label) :
    (String.join (rs.map Row.text)).toList.splitOn '\n' = rs.map Row.line ++ [[]] := by
  induction rs with
  | nil => rfl
  | cons r rs ih =>
    have hline : r.line.splitOn '\n' = [r.line] := by
      refine List.splitOnP_eq_singleton ?_
      intro c hc
      have hne : c ≠ '\n' := fun he => Row.not_mem_line (h r List.mem_cons_self) (he ▸ hc)
      simpa using hne
    have hrest := ih fun r' hr' => h r' (List.mem_cons_of_mem r hr')
    have htext : (String.join ((r :: rs).map Row.text)).toList
        = r.line ++ '\n' :: (String.join (rs.map Row.text)).toList := by
      rw [List.map_cons, String.join_cons, String.toList_append, r.toList_text, List.append_assoc]
      rfl
    calc (String.join ((r :: rs).map Row.text)).toList.splitOn '\n'
      _ = r.line.splitOn '\n' ++ (String.join (rs.map Row.text)).toList.splitOn '\n' := by
        rw [htext]
        exact List.splitOnP_append_cons _ _ (by decide)
      _ = (r :: rs).map Row.line ++ [[]] := by
        rw [hline, hrest]
        rfl

/-- The marks of a forest are read off its text. -/
theorem readMarks_render {roots : List CallTree} (h : ∀ t ∈ preorderAll roots, Plain t.label) :
    readMarks (render roots) = marksAll 0 roots := by
  have hrows : ∀ r ∈ forestRows roots, Plain r.call.label := by
    intro r hr
    have hcall : r.call ∈ (preorderAll roots).map call := by
      rw [← map_call_forestRows]
      exact List.mem_map_of_mem hr
    obtain ⟨t, ht, hcall⟩ := List.mem_map.mp hcall
    rw [← hcall]
    exact h t ht
  rw [readMarks, render_eq_rows, splitOn_rows hrows, List.dropLast_concat, List.map_map,
    ← map_mark_forestRows]
  refine List.map_congr_left ?_
  intro r hr
  exact Row.readMark_line (hrows r hr)

/-- **A printed forest determines the forest**, up to what is not printed. If no label has a line break or
begins like a part of the drawing, two forests print the same exactly if they have the same shape, root
by root and with the same number of calls below each call, in the same order, and the same text at every
call, which is the label and the mark of the innermost outstanding one. -/
theorem render_eq_iff_alike {ts us : List CallTree} (hts : ∀ t ∈ preorderAll ts, Plain t.label)
    (hus : ∀ u ∈ preorderAll us, Plain u.label) :
    render ts = render us ↔ List.Forall₂ Alike ts us := by
  constructor
  · intro h
    have hmarks : marksAll 0 ts ++ [] = marksAll 0 us ++ [] := by
      rw [List.append_nil, List.append_nil, ← readMarks_render hts, ← readMarks_render hus, h]
    exact (alike_of_marksAll ts us 0 (ends_nil 0) (ends_nil 0) hmarks).1
  · exact render_eq_of_alike

/-- A call with two calls below it, of which the first made another one, and a second root. -/
def twoRoots : List CallTree :=
  [.node ⟨0, "f", "3", some "2", true, false, 0, 1, some 7⟩
    [.node ⟨1, "g", "", some "1", true, false, 1, 2, some 5⟩
      [.node ⟨2, "h", "x, y", some "0", true, false, 2, 3, some 4⟩ []],
    .node ⟨3, "h", "", some "undefined", true, false, 1, 6, some 7⟩ []],
  .node ⟨4, "f", "0", some "1", true, true, 0, 8, none⟩ []]

/-- The same calls with other numbers, at other steps. The last one is not marked, but its value ends as if
it were. -/
def twoRootsLater : List CallTree :=
  [.node ⟨5, "f", "3", some "2", true, false, 0, 11, some 17⟩
    [.node ⟨6, "g", "", some "1", true, false, 1, 12, some 15⟩
      [.node ⟨7, "h", "x, y", some "0", true, false, 2, 13, some 14⟩ []],
    .node ⟨8, "h", "", some "undefined", true, false, 1, 16, some 17⟩ []],
  .node ⟨9, "f", "0", some "1 <", true, false, 0, 18, none⟩ []]

theorem twoRoots_alike :
    ((∀ t ∈ preorderAll twoRoots, Plain t.label) ∧ ∀ u ∈ preorderAll twoRootsLater, Plain u.label)
    ∧ render twoRoots
      = "f(3) => 2\n├── g() => 1\n│   └── h(x, y) => 0\n└── h() => undefined\nf(0) => 1 <\n"
    ∧ render twoRootsLater = render twoRoots
    ∧ List.Forall₂ Alike twoRoots twoRootsLater := by
  have hplain : ∀ t ∈ preorderAll twoRoots, Plain t.label := by decide +kernel
  have hplain' : ∀ u ∈ preorderAll twoRootsLater, Plain u.label := by decide +kernel
  have htext : render twoRoots
      = "f(3) => 2\n├── g() => 1\n│   └── h(x, y) => 0\n└── h() => undefined\nf(0) => 1 <\n" := by
    rw [render_eq_rows]
    decide +kernel
  have hsame : render twoRootsLater = render twoRoots := by
    rw [render_eq_rows, render_eq_rows]
    decide +kernel
  exact ⟨⟨hplain, hplain'⟩, htext, hsame, (render_eq_iff_alike hplain hplain').mp hsame.symm⟩

end CallTree

end Retrace
