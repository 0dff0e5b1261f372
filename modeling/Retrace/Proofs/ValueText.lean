import Retrace.ValueText
/-!
# How long the text of a value is

The limits cut a text to its first characters, an array to its first items and the JSON text of an object
to its first characters. What stands bare is not cut: a number, an item of an array, and the value of a
tree node (`bareTexts`). So the text of a value is bounded by the limits and by what stands bare in it,
and what stands bare is there in full (`valueText_bounded`). Items and the values of tree nodes may be as
long as one likes; hence no bound depends on the limits alone (`valueText_unbounded`).
-/

namespace Retrace

open Json (Value)

/-! ## Texts put together -/

theorem length_intercalate_le {w : Nat} {texts : List String} (h : ∀ text ∈ texts, text.length ≤ w) :
    (", ".intercalate texts).length ≤ texts.length * (w + 2) := by
  induction texts with
  | nil => simp
  | cons text texts ih =>
    rw [List.forall_mem_cons] at h
    have hrest := ih h.2
    cases texts with
    | nil =>
      rw [String.intercalate_singleton, List.length_singleton]
      omega
    | cons next texts =>
      have hcomma : ", ".length = 2 := by decide
      rw [String.intercalate_cons_cons, String.length_append, String.length_append, hcomma,
        List.length_cons, Nat.succ_mul]
      omega

theorem length_le_intercalate {text : String} {texts : List String} (h : text ∈ texts) :
    text.length ≤ (", ".intercalate texts).length := by
  induction texts with
  | nil => cases h
  | cons first texts ih =>
    cases texts with
    | nil =>
      rw [List.mem_singleton.mp h]
      exact Nat.le_of_eq (congrArg String.length String.intercalate_singleton.symm)
    | cons next texts =>
      rw [String.intercalate_cons_cons, String.length_append, String.length_append]
      rcases List.mem_cons.mp h with rfl | hrest
      · omega
      · have := ih hrest
        omega

/-- A text is cut to its first characters. -/
theorem length_truncate_le (text : String) (max : Nat) : (truncate text max).length ≤ max + 3 := by
  have hmark : cutMark.length = 3 := by decide
  have hlength : text.toList.length = text.length := String.length_toList
  unfold truncate
  dsimp only
  split
  next h => omega
  next h =>
    rw [String.length_append, String.length_ofList, List.length_take, hmark]
    omega

/-! ## What stands bare -/

/-- What stands bare in the text of a value: a number, the items of an array as far as they are shown and
the number of all of them where it is told, and the value of a tree node. -/
def bareTexts (limits : TextLimits) : Option Value → List String
  | some (.number n) => [(Value.number n).compact]
  | some (.array items) =>
    (items.take limits.maxArray).map itemText
      ++ if limits.maxArray < items.length ∧ limits.countSuffix = true then
          [decimalText items.length] else []
  | some (.object members) => if isTreeNode members then [nodeText members] else []
  | _ => []

/-- How long a text may be within the limits, if what stands bare in it has at most `w` characters. -/
def TextLimits.bound (limits : TextLimits) (w : Nat) : Nat :=
  max (limits.maxString + 5) (max (limits.maxObject + 3) (limits.maxArray * (w + 2) + w + 19))

variable {limits : TextLimits} {w : Nat}

theorem length_arrayText_le {items : List Value}
    (h : ∀ text ∈ bareTexts limits (some (.array items)), text.length ≤ w) :
    (arrayText items limits).length ≤ limits.maxArray * (w + 2) + w + 16 := by
  obtain ⟨hitems, hcount⟩ := List.forall_mem_append.mp h
  have hshown := length_intercalate_le hitems
  have hnumber : ((items.take limits.maxArray).map itemText).length ≤ limits.maxArray := by
    rw [List.length_map]
    exact List.length_take_le _ _
  have hwidth := Nat.mul_le_mul_right (w + 2) hnumber
  have hsigns : "[".length = 1 ∧ "]".length = 1 ∧ ", ".length = 2 ∧ cutMark.length = 3
      ∧ " (".length = 2 ∧ " items)]".length = 8 := by decide
  unfold arrayText
  dsimp only
  split
  next =>
    simp only [String.length_append]
    omega
  next hcut =>
    split
    next hsuffix =>
      rw [if_pos ⟨Nat.lt_of_not_le hcut, hsuffix⟩, List.forall_mem_singleton] at hcount
      simp only [String.length_append]
      omega
    next =>
      simp only [String.length_append]
      omega

theorem length_le_arrayText {items : List Value} {text : String}
    (h : text ∈ bareTexts limits (some (.array items))) :
    text.length ≤ (arrayText items limits).length := by
  unfold arrayText
  dsimp only
  rcases List.mem_append.mp h with hitem | hcount
  · have hshown := length_le_intercalate hitem
    split
    next =>
      simp only [String.length_append]
      omega
    next =>
      split <;> simp only [String.length_append] <;> omega
  · split at hcount
    next hcut =>
      rw [if_neg (Nat.not_le_of_lt hcut.1), if_pos hcut.2, List.mem_singleton.mp hcount]
      simp only [String.length_append]
      omega
    next => cases hcount

theorem length_objectText_le {members : List (String × Value)}
    (h : ∀ text ∈ bareTexts limits (some (.object members)), text.length ≤ w) :
    (objectText members limits).length ≤ max (limits.maxObject + 3) (w + 19) := by
  unfold objectText
  by_cases hnode : isTreeNode members = true
  · have hvalue : (nodeText members).length ≤ w := by
      refine h _ ?_
      rw [bareTexts, if_pos hnode]
      exact List.mem_singleton_self _
    have hsigns : "Tree Node (value: ".length = 18 ∧ ")".length = 1 := by decide
    rw [if_pos hnode]
    simp only [String.length_append]
    omega
  · have hcut := length_truncate_le (Value.object members).compact limits.maxObject
    rw [if_neg hnode]
    omega

theorem length_le_objectText {members : List (String × Value)} {text : String}
    (h : text ∈ bareTexts limits (some (.object members))) :
    text.length ≤ (objectText members limits).length := by
  rw [bareTexts] at h
  unfold objectText
  by_cases hnode : isTreeNode members = true
  · rw [if_pos hnode] at h ⊢
    rw [List.mem_singleton.mp h]
    simp only [String.length_append]
    omega
  · rw [if_neg hnode] at h
    cases h

theorem length_valueText_le {v : Option Value} (h : ∀ text ∈ bareTexts limits v, text.length ≤ w) :
    (valueText limits v).length ≤ limits.bound w := by
  unfold TextLimits.bound
  cases v with
  | none =>
    have hword : "undefined".length = 9 := by decide
    show "undefined".length ≤ _
    omega
  | some v =>
    cases v with
    | null =>
      have hword : Value.null.compact.length = 4 := by decide
      show Value.null.compact.length ≤ _
      omega
    | bool b =>
      have hword : ∀ b, (Value.bool b).compact.length ≤ 5 := by decide
      have := hword b
      show (Value.bool b).compact.length ≤ _
      omega
    | number n =>
      have hnumber : (valueText limits (some (.number n))).length ≤ w := h _ List.mem_cons_self
      omega
    | string s =>
      have hcut := length_truncate_le s limits.maxString
      have hquote : "\"".length = 1 := by decide
      show ("\"" ++ truncate s limits.maxString ++ "\"").length ≤ _
      rw [String.length_append, String.length_append]
      omega
    | array items =>
      have harray := length_arrayText_le h
      show (arrayText items limits).length ≤ _
      omega
    | object members =>
      have hobject := length_objectText_le h
      show (objectText members limits).length ≤ _
      omega

/-- What stands bare in a text is there in full. -/
theorem length_le_valueText {v : Option Value} {text : String} (h : text ∈ bareTexts limits v) :
    text.length ≤ (valueText limits v).length := by
  cases v with
  | none => cases h
  | some v =>
    cases v with
    | null => cases h
    | bool b => cases h
    | number n =>
      rw [List.mem_singleton.mp h]
      exact Nat.le_refl _
    | string s => cases h
    | array items => exact length_le_arrayText h
    | object members => exact length_le_objectText h

/-! ## The bound -/

/-- **The text of a value is bounded but for what stands bare in it.** The limits and the width of what
stands bare give a bound, however large the strings of the value and however deep it nests; where nothing
stands bare, as in the text of a string or of an object that is no tree node, the limits alone give it.
And what stands bare stands there in full, so nothing less would do: the text is no shorter. -/
theorem valueText_bounded (limits : TextLimits) (v : Option Value) :
    (∀ w, (∀ text ∈ bareTexts limits v, text.length ≤ w) →
      (valueText limits v).length ≤ limits.bound w)
    ∧ ∀ text ∈ bareTexts limits v, text.length ≤ (valueText limits v).length :=
  ⟨fun _ => length_valueText_le, fun _ => length_le_valueText⟩

/-- Twelve numbers of at most two digits, of which ten are shown. -/
theorem valueText_of_twelve :
    let v := some (.array ((List.range 12).map Value.nat))
    (∀ text ∈ bareTexts .forVariable v, text.length ≤ 2)
    ∧ "12" ∈ bareTexts .forVariable v
    ∧ valueText .forVariable v = "[0, 1, 2, 3, 4, 5, 6, 7, 8, 9, ... (12 items)]"
    ∧ (valueText .forVariable v).length ≤ 61 := by
  intro v
  have hwidth : ∀ text ∈ bareTexts .forVariable v, text.length ≤ 2 := by decide +kernel
  have hbound : TextLimits.forVariable.bound 2 = 61 := by decide
  refine ⟨hwidth, by decide +kernel, by decide +kernel, ?_⟩
  rw [← hbound]
  exact (valueText_bounded .forVariable v).1 2 hwidth

/-! ## What has no bound -/

theorem mem_bareTexts_of_item (limits : TextLimits) (hshown : 0 < limits.maxArray) (item : Value) :
    itemText item ∈ bareTexts limits (some (.array [item])) := by
  obtain ⟨shown, hsucc⟩ := Nat.exists_eq_succ_of_ne_zero (Nat.ne_of_gt hshown)
  rw [bareTexts, hsucc]
  exact List.mem_append_left _ List.mem_cons_self

/-- Some text of the given length that needs no escapes. -/
def plainText (length : Nat) : String := String.ofList (List.replicate length 'a')

theorem length_plainText (length : Nat) : (plainText length).length = length := by
  rw [plainText, String.length_ofList, List.length_replicate]

theorem length_compact_plainText (length : Nat) :
    length < (Value.array [.string (plainText length)]).compact.length := by
  have hescape : (List.replicate length 'a').flatMap Json.escape = List.replicate length 'a' := by
    induction length with
    | zero => rfl
    | succ length ih =>
      rw [List.replicate_succ, List.flatMap_cons, ih]
      rfl
  have hquoted : (Json.quoted (some (plainText length))).length = length + 2 := by
    rw [Json.quoted, plainText, String.toList_ofList, hescape]
    simp
  have htokens : (Value.array [.string (plainText length)]).tree.tokens
      = [.openBracket, .string (some (plainText length)), .closeBracket] := by
    simp only [Value.tree, Value.itemTrees, Json.Tree.tokens, Json.Tree.itemTokens]
    rfl
  rw [Value.compact, Json.Tree.compact, htokens, String.length_ofList, List.flatMap_cons,
    List.flatMap_cons, List.length_append, List.length_append]
  show length < _ + ((Json.quoted (some (plainText length))).length + _)
  omega

/-- **The limits alone give no bound.** Twenty characters are shown of a text that is an item of an array,
where a text is cut after fifteen. Whatever the limits, and with no number in sight, there are values
whose texts are longer than any bound: tree nodes with long values, and, if items are shown at all, arrays
with long texts or with long arrays as items. -/
theorem valueText_unbounded :
    valueText .forCallTree (some (.array [.string "abcdefghijklmnopqrst"]))
      = "[abcdefghijklmnopqrst]"
    ∧ ∀ (limits : TextLimits) (bound : Nat), ∃ s : String,
      bound < (valueText limits (some (.object [("left", .null), ("value", .string s)]))).length
      ∧ (0 < limits.maxArray →
        bound < (valueText limits (some (.array [.string s]))).length
        ∧ bound < (valueText limits (some (.array [.array [.string s]]))).length) := by
  refine ⟨by decide +kernel, ?_⟩
  intro limits bound
  have hlength := length_plainText (bound + 1)
  refine ⟨plainText (bound + 1), ?_, ?_⟩
  · have hvalue : (plainText (bound + 1)).length
        ≤ (valueText limits
            (some (.object [("left", .null), ("value", .string (plainText (bound + 1)))]))).length :=
      length_le_valueText List.mem_cons_self
    omega
  · intro hshown
    have hitem : (plainText (bound + 1)).length
        ≤ (valueText limits (some (.array [.string (plainText (bound + 1))]))).length :=
      length_le_valueText (mem_bareTexts_of_item limits hshown (.string _))
    have harray : (Value.array [.string (plainText (bound + 1))]).compact.length
        ≤ (valueText limits (some (.array [.array [.string (plainText (bound + 1))]]))).length :=
      length_le_valueText (mem_bareTexts_of_item limits hshown (.array _))
    have hlong := length_compact_plainText (bound + 1)
    exact ⟨by omega, by omega⟩

end Retrace
