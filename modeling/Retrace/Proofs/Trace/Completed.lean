import Retrace.Trace.Basic
import Retrace.Proofs.Json.Assembly
/-!
# Completed traces

Completing a trace looks only at variables without a text to show, and the text it gives one is never
empty (`valueText_ne_empty`). So nothing is left to complete (`Trace.completed_completed`). The other
data of the entries stay as they are, and a value is kept or replaced by what stands for a function
(`Trace.mem_values_completed`).
-/

namespace Retrace

open Json (Value Tree)

/-! ## The text of a value is not empty -/

theorem append_ne_empty {s : String} (h : s ≠ "") (t : String) : s ++ t ≠ "" :=
  fun he => h (String.append_eq_empty_iff.mp he).1

/-- The JSON text of a value begins with the head of its first token. -/
theorem Json.Value.compact_ne_empty (v : Value) : v.compact ≠ "" := by
  obtain ⟨k, ks, htokens, -⟩ := v.tree.exists_head_tokens
  obtain ⟨c, s, hchars, -⟩ := k.exists_head
  rw [Value.compact, Tree.compact, htokens, List.flatMap_cons, hchars]
  exact fun h => nomatch String.ofList_eq_empty_iff.mp h

theorem truncate_ne_empty {text : String} (h : text ≠ "") (max : Nat) : truncate text max ≠ "" := by
  have hmark : cutMark ≠ "" := by decide
  simp only [truncate]
  split
  · exact h
  · exact fun he => hmark (String.append_eq_empty_iff.mp he).2

theorem valueText_ne_empty (limits : TextLimits) (v : Option Value) : valueText limits v ≠ "" := by
  have hquote : "\"" ≠ "" := by decide
  have hbracket : "[" ≠ "" := by decide
  rcases v with - | v
  · show "undefined" ≠ ""
    decide
  · cases v with
    | null | bool _ | number _ => exact Value.compact_ne_empty _
    | string s => exact append_ne_empty (append_ne_empty hquote _) _
    | array items =>
      show arrayText items limits ≠ ""
      unfold arrayText
      split
      · exact append_ne_empty (append_ne_empty hbracket _) _
      · split <;> simp only [String.append_assoc] <;> exact append_ne_empty hbracket _
    | object members =>
      show objectText members limits ≠ ""
      unfold objectText
      split
      · rw [String.append_assoc]
        exact append_ne_empty (by decide) _
      · exact truncate_ne_empty (Value.compact_ne_empty _) _

/-! ## Variables -/

namespace Variable

theorem display_completed (v : Variable) : v.completed.display ≠ "" := by
  unfold completed
  split
  · split
    · show functionText ≠ ""
      decide
    · exact valueText_ne_empty .forVariable v.value
  · next h => exact h

theorem completed_of_display {v : Variable} (h : v.display ≠ "") : v.completed = v := if_neg h

/-- The value is kept, unless a function was recorded without a text. -/
theorem value_completed (v : Variable) :
    v.completed.value = v.value ∨ v.completed.value = some (.string functionText) := by
  unfold completed
  split
  · split
    · exact .inr rfl
    · exact .inl rfl
  · exact .inl rfl

end Variable

/-! ## Traces -/

/-- All variables of an entry, scope after scope. -/
def Entry.bindings (e : Entry) : List Variable := e.scopes.flatMap Scope.bindings

theorem Entry.bindings_completed (e : Entry) :
    e.completed.bindings = e.bindings.map Variable.completed := by
  unfold bindings completed
  rw [List.flatMap_map, List.map_flatMap]
  rfl

namespace Trace

/-- All variables of a trace, entry after entry. -/
def bindings (t : Trace) : List Variable := t.entries.toList.flatMap Entry.bindings

/-- All values that the variables of a trace hold. -/
def values (t : Trace) : List Value := t.bindings.filterMap Variable.value

theorem bindings_completed (t : Trace) : t.completed.bindings = t.bindings.map Variable.completed := by
  unfold bindings completed
  rw [Array.toList_map, List.flatMap_map, List.map_flatMap]
  simp only [Entry.bindings_completed]

theorem mem_values_completed {t : Trace} {x : Value} (h : x ∈ t.completed.values) :
    x ∈ t.values ∨ x = .string Variable.functionText := by
  obtain ⟨v', hv', hx⟩ := List.mem_filterMap.mp h
  rw [bindings_completed] at hv'
  obtain ⟨v, hv, rfl⟩ := List.mem_map.mp hv'
  rcases v.value_completed with hkept | hfunction
  · exact .inl (List.mem_filterMap.mpr ⟨v, hv, hkept ▸ hx⟩)
  · exact .inr (Option.some.inj (hx.symm.trans hfunction))

/-- In a completed trace every variable has a text to show. -/
theorem display_of_mem_completed {t : Trace} {v : Variable} (h : v ∈ t.completed.bindings) :
    v.display ≠ "" := by
  rw [bindings_completed] at h
  obtain ⟨v, -, rfl⟩ := List.mem_map.mp h
  exact v.display_completed

/-- Completing a trace once completes it. -/
theorem completed_completed (t : Trace) : t.completed.completed = t.completed := by
  have hvariable : Variable.completed ∘ Variable.completed = Variable.completed :=
    funext fun v => Variable.completed_of_display v.display_completed
  have hscope : Scope.completed ∘ Scope.completed = Scope.completed := by
    funext s
    simp only [Function.comp_apply, Scope.completed, List.map_map, hvariable]
  have hentry : Entry.completed ∘ Entry.completed = Entry.completed := by
    funext e
    simp only [Function.comp_apply, Entry.completed, List.map_map, hscope]
  unfold completed
  rw [Array.map_map, hentry]

theorem lineCount_completed (t : Trace) : t.completed.lineCount = t.lineCount := by
  unfold lineCount completed
  rw [Array.foldl_map]
  rfl

theorem maxDepth_completed (t : Trace) : t.completed.maxDepth = t.maxDepth := by
  unfold maxDepth completed
  rw [Array.foldl_map]
  rfl

end Trace

end Retrace
