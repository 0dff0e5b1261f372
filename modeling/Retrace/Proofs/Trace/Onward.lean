import Retrace.Trace.Player
/-!
# A player only goes onward

No step of a player takes it back in its trace (`Onward`), and a step that leaves more to play has taken
it at least one entry on. So the entries that are left (`left`) bound how often it can go on.
-/

namespace Retrace

namespace Player

variable {p p' : Player}

/-- The second is the first player, at the same place of the same trace or at a later one, and has taken
as many small steps or more. -/
structure Onward (p p' : Player) : Prop where
  limits : p'.limits = p.limits
  trace : p'.trace = p.trace
  position_le : p.position ≤ p'.position
  stepCount_le : p.stepCount ≤ p'.stepCount

theorem Onward.refl (p : Player) : p.Onward p := ⟨rfl, rfl, Nat.le_refl _, Nat.le_refl _⟩

theorem Onward.trans {p'' : Player} (h : p.Onward p') (h' : p'.Onward p'') : p.Onward p'' :=
  ⟨h'.limits.trans h.limits, h'.trace.trans h.trace, Nat.le_trans h.position_le h'.position_le,
    Nat.le_trans h.stepCount_le h'.stepCount_le⟩

/-- The entries of the trace from where the player stands. -/
def left (p : Player) : Nat := p.length - p.position

theorem Onward.length_eq (h : p.Onward p') : p'.length = p.length := by
  unfold length
  rw [h.trace]

theorem Onward.left_le (h : p.Onward p') : p'.left ≤ p.left := by
  have hle := h.position_le
  unfold left
  rw [h.length_eq]
  omega

theorem onward_microStep (p : Player) : p.Onward p.microStep.1 := by
  unfold microStep fail
  split
  · exact .refl p
  · split
    · exact ⟨rfl, rfl, Nat.le_refl _, Nat.le_refl _⟩
    · split
      · exact ⟨rfl, rfl, Nat.le_refl _, Nat.le_refl _⟩
      · split
        · exact ⟨rfl, rfl, Nat.le_refl _, Nat.le_refl _⟩
        · simp only
          split <;> exact ⟨rfl, rfl, Nat.le_succ _, Nat.le_succ _⟩

/-- A small step that reaches an entry reaches a later one of the trace. -/
theorem left_microStep (h : p.microStep = (p', .ok true)) : p'.left < p.left := by
  unfold microStep fail at h
  split at h
  · cases h
  · split at h
    · cases h
    · split at h
      · cases h
      · split at h
        · cases h
        · rename_i hnext
          simp only at h
          split at h
          · cases h
          · cases h
            show p.length - (p.position + 1) < p.length - p.position
            omega

theorem onward_walk (start : Option Nat) : ∀ (remaining spent : Nat) (p : Player),
    p.Onward (walk start remaining spent p).1
  | 0, _, p => .refl p
  | remaining + 1, spent, p => by
    have hstep := p.onward_microStep
    unfold walk
    split
    next p₁ e he =>
      rw [he] at hstep
      exact hstep
    next p₁ he =>
      rw [he] at hstep
      exact hstep
    next p₁ he =>
      rw [he] at hstep
      simp only
      split
      · exact hstep
      · exact hstep.trans (onward_walk start remaining (spent + 1) p₁)

/-- A walk of at least one small step that leaves more to play has come to a later entry. -/
theorem left_walk (start : Option Nat) {line : LineStep} (hmore : line.hasMore = true) :
    ∀ (remaining spent : Nat) (p : Player),
      walk start (remaining + 1) spent p = (p', .ok line) → p'.left < p.left
  | remaining, spent, p, h => by
    unfold walk at h
    split at h
    next => cases h
    next =>
      cases h
      cases hmore
    next p₁ he =>
      have hless := left_microStep he
      simp only at h
      split at h
      · cases h
        exact hless
      · cases remaining with
        | zero =>
          cases h
          exact hless
        | succ remaining => exact Nat.lt_trans (left_walk start hmore remaining (spent + 1) p₁ h) hless

theorem onward_stepToNextLine (p : Player) (ceiling : Nat) :
    p.Onward (p.stepToNextLine ceiling).1 := by
  unfold stepToNextLine
  split
  · exact .refl p
  · exact onward_walk _ ceiling 0 p

theorem left_stepToNextLine {ceiling : Nat} {line : LineStep} (hc : 0 < ceiling)
    (h : p.stepToNextLine ceiling = (p', .ok line)) (hmore : line.hasMore = true) :
    p'.left < p.left := by
  unfold stepToNextLine at h
  split at h
  · cases h
    cases hmore
  · obtain ⟨ceiling, rfl⟩ := Nat.exists_eq_succ_of_ne_zero (Nat.ne_zero_of_lt hc)
    exact left_walk _ hmore ceiling 0 p h

/-- Loading keeps the limits. -/
theorem limits_load (p : Player) (source : String) : (p.load source).1.limits = p.limits := by
  unfold load
  split <;> rfl

end Player

end Retrace
