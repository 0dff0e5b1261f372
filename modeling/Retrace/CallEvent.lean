import Retrace.Snapshot
/-!
# Calls read off the call stack

A recorded program shows its call stack after each step, but not the calls and returns themselves.
They are inferred from the depth of the stack: a deeper stack means that the innermost frame was
entered, a shallower one that a call returned. The first stack seen only sets the baseline.

The value of a return is a guess from the innermost scope: a variable with one of the conventional
names, in the order of the names; else the first array; else the first value that is no function.
-/

namespace Retrace

open Json (Value)

/-- A function being called. -/
structure Call where
  functionName : String
  arguments : List Value
  /-- The step at which the call was seen. -/
  step : Nat
  line : Option Nat

/-- A change of the call tree. -/
inductive CallEvent where
  | enter (call : Call)
  /-- The innermost call returns, seen at a step. -/
  | leave (value : Option Value) (step : Nat)

/-- What the depth of the call stack says of a step. -/
inductive Transition where
  /-- The first stack seen. -/
  | seeded
  | unchanged
  /-- The stack grew. There is no call if the innermost frame is not a named one. -/
  | entered (call : Option Call)
  /-- The stack shrank. -/
  | returned (value : Option Value) (step : Nat)

namespace Transition

/-- The change of the call tree, if there is one. -/
def event? : Transition → Option CallEvent
  | entered call => call.map .enter
  | returned value step => some (.leave value step)
  | seeded => none
  | unchanged => none

/-- Whether the stack grew. -/
def isEntered : Transition → Bool
  | entered _ => true
  | _ => false

end Transition

namespace Snapshot

/-- The names of variables that conventionally hold a result, the likeliest first. -/
def resultNames : List String := ["result", "res", "ret", "output", "value", "data", "sorted"]

/-- The variables of the innermost scope. -/
def innermostVariables (s : Snapshot) : List Variable := s.innermostScope?.elim [] Scope.bindings

/-- The guessed value of a return. -/
def returnValue? (s : Snapshot) : Option Value :=
  let candidates := s.innermostVariables
  let named := resultNames.findSome? fun name =>
    (candidates.find? (·.name == name)).bind Variable.value
  let array := candidates.findSome? fun v => v.arrayItems?.map .array
  let plain := (candidates.filter (·.kind != .function)).findSome? Variable.value
  named <|> array <|> plain

/-- The call of the innermost frame, if that is a named one. -/
def innermostCall? (s : Snapshot) : Option Call :=
  match s.innermostFrame? with
  | none => none
  | some f =>
    if f.isNamedCall then
      some ⟨f.functionName, f.arguments.map .string, s.position.stepNumber, f.line⟩
    else none

/-- What a snapshot says after one with the given depth. -/
def transition (s : Snapshot) : (previous : Option Nat) → Transition
  | none => .seeded
  | some previous =>
    if previous < s.depth then .entered s.innermostCall?
    else if s.depth < previous then .returned s.returnValue? s.position.stepNumber
    else .unchanged

/-- A change that is read off a snapshot is the call of its innermost frame, or a return with the value
that is guessed from it. -/
theorem event?_cases {s : Snapshot} {previous : Option Nat} {e : CallEvent}
    (h : (s.transition previous).event? = some e) :
    (∃ c, s.innermostCall? = some c ∧ e = .enter c)
      ∨ e = .leave s.returnValue? s.position.stepNumber := by
  cases previous with
  | none => cases h
  | some previous =>
    simp only [transition] at h
    by_cases hdeeper : previous < s.depth
    · rw [if_pos hdeeper] at h
      obtain ⟨c, hcall, he⟩ := Option.map_eq_some_iff.mp h
      exact Or.inl ⟨c, hcall, he.symm⟩
    · rw [if_neg hdeeper] at h
      by_cases hback : s.depth < previous
      · rw [if_pos hback] at h
        exact Or.inr (Option.some.inj h).symm
      · rw [if_neg hback] at h
        cases h

end Snapshot

/-- The depth of the last call stack seen, none before the first. -/
structure Baseline where
  depth : Option Nat
deriving DecidableEq, Repr

namespace Baseline

/-- No stack seen yet. -/
def none : Baseline := ⟨Option.none⟩

/-- Takes notice of a snapshot and tells what its depth says. -/
def observe (b : Baseline) (s : Snapshot) : Baseline × Transition :=
  (⟨some s.depth⟩, s.transition b.depth)

end Baseline

end Retrace
