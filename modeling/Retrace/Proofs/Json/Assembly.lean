import Retrace.Proofs.Json.Lexing
/-!
# A document reads back

The indented text of a tree spells its tokens (`spells_indented`), and so does its text on one line
(`spells_compact`); from the tokens of a tree the tree is assembled again, whatever is open around it
(`assemble_tokens`). So a tree reads back from either text. All three go along the tree: one statement for a tree, and one for what follows an item of
an array or a member of an object.
-/

namespace Retrace.Json

namespace Tree

/-! ## From tokens to the tree -/

/-- No tree begins with a closing bracket. -/
theorem exists_head_tokens (t : Tree) :
    ∃ k ks, t.tokens = k :: ks ∧ k ≠ .closeBracket := by
  cases t with
  | null => exact ⟨.null, [], by unfold tokens; rfl, nofun⟩
  | bool b => exact ⟨.bool b, [], by unfold tokens; rfl, nofun⟩
  | number n => exact ⟨.number n, [], by unfold tokens; rfl, nofun⟩
  | string s => exact ⟨.string s, [], by unfold tokens; rfl, nofun⟩
  | array items => cases items <;> exact ⟨.openBracket, _, by unfold tokens; rfl, nofun⟩
  | object members =>
    rcases members with - | ⟨⟨k, t⟩, ms⟩ <;> exact ⟨.openBrace, _, by unfold tokens; rfl, nofun⟩

/-- An array that is opened and not closed at once waits for its first item. -/
theorem assemble_openBracket {k : Token} (hk : k ≠ .closeBracket) (ks : List Token)
    (outer : List Frame) : assemble (.before outer) (.openBracket :: k :: ks)
      = assemble (.before (.array [] :: outer)) (k :: ks) := by
  cases k with
  | closeBracket => exact absurd rfl hk
  | _ => simp only [assemble]

mutual

/-- The tokens of a tree are assembled to the tree. -/
theorem assemble_tokens : ∀ (t : Tree) (outer : List Frame) (ts : List Token),
    assemble (.before outer) (t.tokens ++ ts) = assemble (.after t outer) ts
  | null, outer, ts => by simp only [tokens, List.cons_append, List.nil_append, assemble]
  | bool b, outer, ts => by simp only [tokens, List.cons_append, List.nil_append, assemble]
  | number n, outer, ts => by simp only [tokens, List.cons_append, List.nil_append, assemble]
  | string s, outer, ts => by simp only [tokens, List.cons_append, List.nil_append, assemble]
  | array [], outer, ts => by simp only [tokens, List.cons_append, List.nil_append, assemble]
  | array (t :: items), outer, ts => by
    -- the first item decides that the bracket is not closed at once, so its first token is exposed
    obtain ⟨k, ks, hks, hk⟩ := t.exists_head_tokens
    have hfirst := assemble_tokens t (.array [] :: outer) (itemTokens items ++ ts)
    have hrest := assemble_itemTokens items t [] outer ts
    simp only [tokens, List.cons_append, List.append_assoc]
    rw [hks, List.cons_append] at hfirst ⊢
    rw [assemble_openBracket hk, hfirst, hrest]
    rfl
  | object [], outer, ts => by simp only [tokens, List.cons_append, List.nil_append, assemble]
  | object ((k, t) :: members), outer, ts => by
    have hfirst := assemble_tokens t (.object [] k :: outer) (memberTokens members ++ ts)
    have hrest := assemble_memberTokens members t [] k outer ts
    simp only [tokens, List.cons_append, List.append_assoc, assemble]
    rw [hfirst, hrest]
    rfl

/-- The items that follow one are appended to the array that is open. -/
theorem assemble_itemTokens : ∀ (items : List Tree) (t : Tree) (done : List Tree)
    (outer : List Frame) (ts : List Token),
    assemble (.after t (.array done :: outer)) (itemTokens items ++ ts)
      = assemble (.after (.array (done.reverse ++ t :: items)) outer) ts
  | [], t, done, outer, ts => by
    simp only [itemTokens, List.cons_append, List.nil_append, assemble, List.reverse_cons]
  | t' :: items, t, done, outer, ts => by
    have hfirst := assemble_tokens t' (.array (t :: done) :: outer) (itemTokens items ++ ts)
    have hrest := assemble_itemTokens items t' (t :: done) outer ts
    simp only [itemTokens, List.cons_append, List.append_assoc, assemble]
    rw [hfirst, hrest, List.reverse_cons, List.append_assoc]
    rfl

/-- The members that follow one are appended to the object that is open. -/
theorem assemble_memberTokens : ∀ (members : List (Option String × Tree)) (t : Tree)
    (done : List (Option String × Tree)) (key : Option String) (outer : List Frame) (ts : List Token),
    assemble (.after t (.object done key :: outer)) (memberTokens members ++ ts)
      = assemble (.after (.object (done.reverse ++ (key, t) :: members)) outer) ts
  | [], t, done, key, outer, ts => by
    simp only [memberTokens, List.cons_append, List.nil_append, assemble, List.reverse_cons]
  | (k, t') :: members, t, done, key, outer, ts => by
    have hfirst := assemble_tokens t' (.object ((key, t) :: done) k :: outer)
      (memberTokens members ++ ts)
    have hrest := assemble_memberTokens members t' ((key, t) :: done) k outer ts
    simp only [memberTokens, List.cons_append, List.append_assoc, assemble]
    rw [hfirst, hrest, List.reverse_cons, List.append_assoc]
    rfl

end

/-! ## From the text to the tokens -/

/-- Whether a text may follow a tree: it ends, or begins with a comma, a closing bracket or a line
break. -/
def Closes (s : List Char) : Prop := ∀ c ∈ s.head?, c = ',' ∨ c = ']' ∨ c = '\x7d' ∨ c = '\n'

theorem closes_cons {c : Char} (h : c = ',' ∨ c = ']' ∨ c = '\x7d' ∨ c = '\n') (s : List Char) :
    Closes (c :: s) := by
  intro d hd
  obtain rfl := Option.some.inj hd
  exact h

theorem Closes.ends {s : List Char} (h : Closes s) (t : Token) : t.Ends s := by
  intro _ _ c hc
  rcases h c hc with rfl | rfl | rfl | rfl <;> decide

theorem spells_string (k : Option String) {s : List Char} {ts : List Token} (h : Spells s ts) :
    Spells (quoted k ++ s) (.string k :: ts) := .token (.string k) nofun h

theorem spells_lineBreak (level : Nat) {s : List Char} {ts : List Token} (h : Spells s ts) :
    Spells (lineBreak level ++ s) ts := by
  have hblanks : ∀ n, Spells (List.replicate n ' ' ++ s) ts := by
    intro n
    induction n with
    | zero => exact h
    | succ n ih => exact .blank (by decide) ih
  exact .blank (by decide) (hblanks _)

/-- A key, a colon and a blank before a value. -/
theorem spells_key (k : Option String) {s : List Char} {ts : List Token} (h : Spells s ts) :
    Spells (quoted k ++ [':', ' '] ++ s) (.string k :: .colon :: ts) := by
  rw [List.append_assoc]
  exact spells_string k (.token .colon nofun (.blank (by decide) h))

mutual

/-- The indented text of a tree spells its tokens. -/
theorem spells_indented : ∀ (t : Tree) (level : Nat) {s : List Char} {ts : List Token},
    Closes s → Spells s ts → Spells (t.indentedChars level ++ s) (t.tokens ++ ts)
  | null, level, s, ts, hs, h => by
    unfold indentedChars tokens
    exact .token .null (hs.ends _) h
  | bool b, level, s, ts, hs, h => by
    unfold indentedChars tokens
    exact .token (.bool b) (hs.ends _) h
  | number n, level, s, ts, hs, h => by
    unfold indentedChars tokens
    exact .token (.number n) (hs.ends _) h
  | string k, level, s, ts, hs, h => by
    unfold indentedChars tokens
    exact spells_string k h
  | array [], level, s, ts, hs, h => by
    unfold indentedChars tokens
    exact .token .openBracket nofun (.token .closeBracket nofun h)
  | array (t :: items), level, s, ts, hs, h => by
    obtain ⟨hcloses, hrest⟩ := spells_indentedItems items level h
    have hfirst := spells_indented t (level + 1) hcloses hrest
    unfold indentedChars tokens
    simp only [List.cons_append, List.append_assoc]
    exact .token .openBracket nofun (spells_lineBreak (level + 1) hfirst)
  | object [], level, s, ts, hs, h => by
    unfold indentedChars tokens
    exact .token .openBrace nofun (.token .closeBrace nofun h)
  | object ((k, t) :: members), level, s, ts, hs, h => by
    obtain ⟨hcloses, hrest⟩ := spells_indentedMembers members level h
    have hfirst := spells_indented t (level + 1) hcloses hrest
    have hkey := spells_lineBreak (level + 1) (spells_key k hfirst)
    unfold indentedChars tokens
    simp only [List.cons_append, List.append_assoc] at hkey ⊢
    exact .token .openBrace nofun hkey

theorem spells_indentedItems : ∀ (items : List Tree) (level : Nat) {s : List Char}
    {ts : List Token}, Spells s ts →
    Closes (indentedItems level items ++ s) ∧
      Spells (indentedItems level items ++ s) (itemTokens items ++ ts)
  | [], level, s, ts, h => by
    unfold indentedItems itemTokens
    rw [List.append_assoc]
    exact ⟨closes_cons (by decide) _, spells_lineBreak level (.token .closeBracket nofun h)⟩
  | t :: items, level, s, ts, h => by
    obtain ⟨hcloses, hrest⟩ := spells_indentedItems items level h
    have hfirst := spells_indented t (level + 1) hcloses hrest
    unfold indentedItems itemTokens
    simp only [List.cons_append, List.append_assoc]
    exact ⟨closes_cons (by decide) _, .token .comma nofun (spells_lineBreak (level + 1) hfirst)⟩

theorem spells_indentedMembers : ∀ (members : List (Option String × Tree)) (level : Nat)
    {s : List Char} {ts : List Token}, Spells s ts →
    Closes (indentedMembers level members ++ s) ∧
      Spells (indentedMembers level members ++ s) (memberTokens members ++ ts)
  | [], level, s, ts, h => by
    unfold indentedMembers memberTokens
    rw [List.append_assoc]
    exact ⟨closes_cons (by decide) _, spells_lineBreak level (.token .closeBrace nofun h)⟩
  | (k, t) :: members, level, s, ts, h => by
    obtain ⟨hcloses, hrest⟩ := spells_indentedMembers members level h
    have hfirst := spells_indented t (level + 1) hcloses hrest
    have hkey := spells_lineBreak (level + 1) (spells_key k hfirst)
    unfold indentedMembers memberTokens
    simp only [List.cons_append, List.append_assoc] at hkey ⊢
    exact ⟨closes_cons (by decide) _, .token .comma nofun hkey⟩

end

mutual

/-- The text of a tree on one line spells its tokens too. -/
theorem spells_compact : ∀ (t : Tree) {s : List Char} {ts : List Token}, Closes s → Spells s ts →
    Spells (t.tokens.flatMap Token.chars ++ s) (t.tokens ++ ts)
  | null, s, ts, hs, h => by
    unfold tokens
    exact .token .null (hs.ends _) h
  | bool b, s, ts, hs, h => by
    unfold tokens
    rw [List.flatMap_singleton]
    exact .token (.bool b) (hs.ends _) h
  | number n, s, ts, hs, h => by
    unfold tokens
    rw [List.flatMap_singleton]
    exact .token (.number n) (hs.ends _) h
  | string k, s, ts, hs, h => by
    unfold tokens
    rw [List.flatMap_singleton]
    exact spells_string k h
  | array [], s, ts, hs, h => by
    unfold tokens
    exact .token .openBracket nofun (.token .closeBracket nofun h)
  | array (t :: items), s, ts, hs, h => by
    obtain ⟨hcloses, hrest⟩ := spells_compactItems items h
    have hfirst := spells_compact t hcloses hrest
    unfold tokens
    simp only [List.flatMap_cons, List.flatMap_append, List.cons_append, List.append_assoc]
    exact .token .openBracket nofun hfirst
  | object [], s, ts, hs, h => by
    unfold tokens
    exact .token .openBrace nofun (.token .closeBrace nofun h)
  | object ((k, t) :: members), s, ts, hs, h => by
    obtain ⟨hcloses, hrest⟩ := spells_compactMembers members h
    have hfirst := spells_compact t hcloses hrest
    unfold tokens
    simp only [List.flatMap_cons, List.flatMap_append, List.cons_append, List.append_assoc]
    exact .token .openBrace nofun (spells_string k (.token .colon nofun hfirst))

theorem spells_compactItems : ∀ (items : List Tree) {s : List Char} {ts : List Token},
    Spells s ts → Closes ((itemTokens items).flatMap Token.chars ++ s) ∧
      Spells ((itemTokens items).flatMap Token.chars ++ s) (itemTokens items ++ ts)
  | [], s, ts, h => by
    unfold itemTokens
    exact ⟨closes_cons (by decide) _, .token .closeBracket nofun h⟩
  | t :: items, s, ts, h => by
    obtain ⟨hcloses, hrest⟩ := spells_compactItems items h
    have hfirst := spells_compact t hcloses hrest
    unfold itemTokens
    simp only [List.flatMap_cons, List.flatMap_append, List.cons_append, List.append_assoc]
    exact ⟨closes_cons (by decide) _, .token .comma nofun hfirst⟩

theorem spells_compactMembers : ∀ (members : List (Option String × Tree)) {s : List Char}
    {ts : List Token}, Spells s ts → Closes ((memberTokens members).flatMap Token.chars ++ s) ∧
      Spells ((memberTokens members).flatMap Token.chars ++ s) (memberTokens members ++ ts)
  | [], s, ts, h => by
    unfold memberTokens
    exact ⟨closes_cons (by decide) _, .token .closeBrace nofun h⟩
  | (k, t) :: members, s, ts, h => by
    obtain ⟨hcloses, hrest⟩ := spells_compactMembers members h
    have hfirst := spells_compact t hcloses hrest
    unfold memberTokens
    simp only [List.flatMap_cons, List.flatMap_append, List.cons_append, List.append_assoc]
    exact ⟨closes_cons (by decide) _,
      .token .comma nofun (spells_string k (.token .colon nofun hfirst))⟩

end

/-! ## From the text to the tree -/

/-- Any text that spells the tokens of a tree denotes the tree. -/
theorem parse?_of_spells {t : Tree} {s : List Char} (h : Spells s t.tokens) :
    parse? (String.ofList s) = some t := by
  have hassembled := assemble_tokens t [] []
  rw [List.append_nil] at hassembled
  unfold parse?
  rw [String.toList_ofList, lex_of_spells h]
  show assemble (.before []) t.tokens = _
  rw [hassembled]
  simp only [assemble]

/-- A tree reads back from its text. -/
theorem parse?_pretty (t : Tree) : parse? t.pretty = some t := by
  have hspells : Spells (t.indentedChars 0 ++ []) (t.tokens ++ []) := spells_indented t 0 nofun .nil
  rw [List.append_nil, List.append_nil] at hspells
  exact parse?_of_spells hspells

theorem parse?_compact (t : Tree) : parse? t.compact = some t := by
  have hspells : Spells (t.tokens.flatMap Token.chars ++ []) (t.tokens ++ []) :=
    spells_compact t nofun .nil
  rw [List.append_nil, List.append_nil] at hspells
  exact parse?_of_spells hspells

end Tree

end Retrace.Json
