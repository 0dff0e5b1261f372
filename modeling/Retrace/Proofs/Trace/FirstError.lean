import Retrace.Proofs.Trace.Ending
/-!
# Which error a play raises

The error of an entry is looked at by the small step that reaches it, and a player stands on the first
entry as soon as the trace is loaded. So of the errors of a trace the first one beyond the first entry
counts (`RaisesAt`): a play ends with its message unless a limit (`limit?`) forbids a small step on the
way there, and an error of the first entry is passed over. `Settles` says this of where and how a trace
ends, and `EndsAt.settles` proves it; `load_settles` says it of every play.
-/

namespace Retrace

namespace Trace

/-- The error of an entry. -/
def error? (t : Trace) (i : Nat) : Option String := t.entries[i]?.bind Entry.error

/-- The limit that forbids the small step leaving entry `p`, if one does. -/
def limit? (t : Trace) (limits : PlayerLimits) (p : Nat) : Option RunFailure :=
  if limits.maxSteps ≤ p then some (.stepLimit limits.maxSteps)
  else if limits.maxStackSize < t.entries[p]?.elim 0 (·.frames.length) then
    some (.stackLimit limits.maxStackSize)
  else none

/-- Entry `k` is the first one beyond the first entry that carries an error, and this is the error. -/
structure RaisesAt (t : Trace) (k : Nat) (message : String) : Prop where
  beyond : 0 < k
  error : t.error? k = some message
  first : ∀ j, 0 < j → j < k → t.error? j = none

/-- Entry `p` is the first one that a limit forbids to leave, and this is the limit. -/
structure LimitAt (t : Trace) (limits : PlayerLimits) (p : Nat) (e : RunFailure) : Prop where
  here : t.limit? limits p = some e
  first : ∀ q, q < p → t.limit? limits q = none

/-- How the errors and the limits of a trace settle where a play ends, and how. -/
structure Settles (t : Trace) (limits : PlayerLimits) (i : Nat) (ending : Ending) : Prop where
  /-- The first error counts if no limit forbids to go there. -/
  raised : ∀ k message, t.RaisesAt k message → (∀ j, j < k → t.limit? limits j = none) →
    i + 1 = k ∧ ending = .failed (.runtime message)
  /-- The first limit counts if no entry up to there carries an error. -/
  limited : ∀ j e, t.LimitAt limits j e → j < t.entries.size →
    (∀ k, 0 < k → k ≤ j → t.error? k = none) → i = j ∧ ending = .failed e
  /-- An error that a limit keeps from being raised does not make for a normal end either. -/
  not_normal : ∀ k message, t.RaisesAt k message → ending ≠ .normal
  /-- Without an error beyond the first entry none is raised. -/
  not_raised : (∀ k, 0 < k → t.error? k = none) → ∀ message, ending ≠ .failed (.runtime message)
  /-- And if no limit forbids a step, the trace is played to its end. -/
  normal : (∀ k, 0 < k → t.error? k = none) →
    (∀ j, j < t.entries.size → t.limit? limits j = none) → ending = .normal

variable {t : Trace} {limits : PlayerLimits} {p : Nat}

/-- A small step fails at a limit, or else by the error of the entry that it reaches. -/
theorem failure?_eq :
    t.failure? limits p = (t.limit? limits p).or ((t.error? (p + 1)).map .runtime) := by
  unfold failure? limit?
  by_cases hsteps : limits.maxSteps ≤ p
  · rw [if_pos hsteps, if_pos hsteps]
    rfl
  · rw [if_neg hsteps, if_neg hsteps]
    by_cases hstack : limits.maxStackSize < t.entries[p]?.elim 0 (·.frames.length)
    · rw [if_pos hstack, if_pos hstack]
      rfl
    · rw [if_neg hstack, if_neg hstack]
      rfl

theorem limit?_ne_runtime (message : String) : t.limit? limits p ≠ some (.runtime message) := by
  unfold limit?
  split
  · intro h
    cases h
  · split
    · intro h
      cases h
    · intro h
      cases h

theorem failure?_of_limit {e : RunFailure} (h : t.limit? limits p = some e) :
    t.failure? limits p = some e := by
  rw [failure?_eq, h]
  rfl

theorem failure?_of_error {message : String} (h : t.limit? limits p = none)
    (herror : t.error? (p + 1) = some message) :
    t.failure? limits p = some (.runtime message) := by
  rw [failure?_eq, h, herror]
  rfl

theorem failure?_eq_none_iff :
    t.failure? limits p = none ↔ t.limit? limits p = none ∧ t.error? (p + 1) = none := by
  rw [failure?_eq, Option.or_eq_none_iff, Option.map_eq_none_iff]

theorem lt_size_of_error {message : String} (h : t.error? p = some message) :
    p < t.entries.size := by
  obtain ⟨entry, hentry, -⟩ := Option.bind_eq_some_iff.mp h
  exact (Array.getElem?_eq_some_iff.mp hentry).choose

section EndsAt

variable {q : Nat} {ending ending' : Ending}

/-- A trace ends with the first small step that fails. -/
theorem endsAt_of_failure {e : RunFailure} (hp : p < t.entries.size)
    (hfails : t.failure? limits p = some e) (hfirst : ∀ q, q < p → t.failure? limits q = none) :
    t.EndsAt limits p (.failed e) where
  here := ending?_of_failure hfails
  first q hq := by
    rw [ending?_of_no_failure (hfirst q hq), if_neg]
    omega

theorem EndsAt.failure_of_failed {e : RunFailure} (h : t.EndsAt limits p (.failed e)) :
    t.failure? limits p = some e := by
  have hhere := h.here
  cases hfails : t.failure? limits p with
  | none =>
    obtain ⟨hnormal, -⟩ := h.normal_of_no_failure hfails
    cases hnormal
  | some e' =>
    rw [ending?_of_failure hfails] at hhere
    injection hhere with hhere
    injection hhere with hhere
    rw [hhere]

/-- No small step of a trace that is played to its end fails. -/
theorem EndsAt.no_failure_of_normal (h : t.EndsAt limits p .normal) (hq : q < t.entries.size) :
    t.failure? limits q = none := by
  have hlast : t.failure? limits p = none := by
    cases hfails : t.failure? limits p with
    | none => rfl
    | some e =>
      have hhere := h.here
      rw [ending?_of_failure hfails] at hhere
      cases hhere
  obtain ⟨-, hsize⟩ := h.normal_of_no_failure hlast
  rcases Nat.lt_or_ge q p with hqp | hpq
  · exact h.no_failure hqp
  · have heq : q = p := by omega
    rw [heq]
    exact hlast

end EndsAt

/-- The first error ends the trace if no limit forbids to go there. -/
theorem RaisesAt.endsAt {k : Nat} {message : String} (h : t.RaisesAt (k + 1) message)
    (hlimits : ∀ j, j < k + 1 → t.limit? limits j = none) :
    t.EndsAt limits k (.failed (.runtime message)) := by
  have hsize := lt_size_of_error h.error
  refine endsAt_of_failure (by omega) (failure?_of_error (hlimits k (by omega)) h.error) ?_
  intro j hj
  exact failure?_eq_none_iff.mpr
    ⟨hlimits j (by omega), h.first (j + 1) (by omega) (by omega)⟩

/-- The first limit ends the trace if no entry up to there carries an error. -/
theorem LimitAt.endsAt {e : RunFailure} (h : t.LimitAt limits p e) (hp : p < t.entries.size)
    (hfine : ∀ k, 0 < k → k ≤ p → t.error? k = none) : t.EndsAt limits p (.failed e) := by
  refine endsAt_of_failure hp (failure?_of_limit h.here) ?_
  intro q hq
  exact failure?_eq_none_iff.mpr ⟨h.first q hq, hfine (q + 1) (by omega) (by omega)⟩

/-- Where and how a trace ends is settled by its first error and the first limit. -/
theorem EndsAt.settles {i : Nat} {ending : Ending} (h : t.EndsAt limits i ending)
    (hi : i < t.entries.size) : t.Settles limits i ending where
  raised k message hraises hlimits := by
    obtain ⟨k, rfl⟩ : ∃ j, k = j + 1 := ⟨k - 1, by have := hraises.beyond; omega⟩
    obtain ⟨rfl, rfl⟩ := h.unique (hraises.endsAt hlimits)
    exact ⟨rfl, rfl⟩
  limited j e hlimit hj hfine := h.unique (hlimit.endsAt hj hfine)
  not_normal k message hraises hnormal := by
    subst hnormal
    obtain ⟨k, rfl⟩ : ∃ j, k = j + 1 := ⟨k - 1, by have := hraises.beyond; omega⟩
    -- the small step that reaches the error cannot but fail
    have hsize := lt_size_of_error hraises.error
    have hfine : t.failure? limits k = none := h.no_failure_of_normal (by omega)
    have hnone := (failure?_eq_none_iff.mp hfine).2
    rw [hraises.error] at hnone
    cases hnone
  not_raised hfine message hraised := by
    subst hraised
    have hfails := h.failure_of_failed
    rw [failure?_eq, hfine (i + 1) (by omega)] at hfails
    have hlimit : t.limit? limits i = some (.runtime message) := by simpa using hfails
    exact limit?_ne_runtime message hlimit
  normal hfine hlimits := by
    have hnone : t.failure? limits i = none :=
      failure?_eq_none_iff.mpr ⟨hlimits i hi, hfine (i + 1) (by omega)⟩
    exact (h.normal_of_no_failure hnone).1

end Trace

namespace Player

section Played

variable {limits : PlayerLimits} {t : Trace} {p : Nat} {ending : Ending}

/-- A play from the first entry is over after as many calls as there are entries. -/
theorem isDone_playLines (h : t.EndsAt limits p ending) (hp : p < t.entries.size)
    {ceilings : List Nat} (hc : ∀ ceiling ∈ ceilings, 0 < ceiling)
    (hlength : t.entries.size ≤ ceilings.length) :
    ((standing limits t 0).playLines ceilings).1.isDone = true := by
  by_contra hgo
  rw [Bool.not_eq_true] at hgo
  have := (played_playLines h hp hc (Nat.zero_le p)).2 hgo
  omega

/-- When it is over, the player has ended as the trace ends, and one call told so. -/
theorem playLines_of_done (h : t.EndsAt limits p ending) (hp : p < t.entries.size)
    {ceilings : List Nat} (hc : ∀ ceiling ∈ ceilings, 0 < ceiling)
    (hdone : ((standing limits t 0).playLines ceilings).1.isDone = true) :
    ((standing limits t 0).playLines ceilings).1 = ended limits t p ending
    ∧ ∃ before last further,
        ((standing limits t 0).playLines ceilings).2
          = before ++ last :: List.replicate further nothingToDo
        ∧ (∀ r ∈ before, GoesOn r) ∧ Tells last ending := by
  have hplayed := (played_playLines h hp hc (Nat.zero_le p)).1
  generalize (standing limits t 0).playLines ceilings = result at hplayed hdone ⊢
  cases hplayed with
  | underWay q hq results hmore => cases hdone
  | finished before hmore last hlast further =>
    exact ⟨rfl, before, last, further, rfl, hmore, hlast⟩

end Played

/-- Take any player, with any limits, that has loaded a trace. There are an entry and an ending that
its errors and the limits settle: with an error beyond the first entry the play never ends normally; it
ends with the message of the first such error, on the entry that carries it, or, if a limit forbids a
small step before that entry, with the first limit; an error of the first entry plays no part. Go on to
the next line as often as you like, each time with any ceiling but zero. After as many calls as there
are entries, if not before, the play is over; and then the player has come to that end, one call told
the ending, all before it had more to play and all after it had nothing to do. -/
theorem load_settles {p : Player} {source : String} (hload : (p.load source).2 = .ok ()) :
    ∃ t i ending, (p.load source).1.trace = some t ∧ i < t.entries.size
      ∧ t.Settles p.limits i ending
      ∧ ∀ ceilings : List Nat, (∀ ceiling ∈ ceilings, 0 < ceiling) →
          let played := (p.load source).1.playLines ceilings
          (t.entries.size ≤ ceilings.length → played.1.isDone = true)
          ∧ (played.1.isDone = true →
              played.1 = ended p.limits t i ending
              ∧ ∃ before last further, played.2 = before ++ last :: List.replicate further nothingToDo
                  ∧ (∀ r ∈ before, GoesOn r) ∧ Tells last ending) := by
  obtain ⟨t, hread⟩ := exists_read_of_load hload
  rw [load_of_read hread]
  obtain ⟨i, ending, hends, hi⟩ := Trace.exists_endsAt p.limits (Trace.size_pos_of_read hread)
  refine ⟨t, i, ending, rfl, hi, hends.settles hi, ?_⟩
  intro ceilings hc played
  exact ⟨isDone_playLines hends hi hc, playLines_of_done hends hi hc⟩

/-- A trace with an error on its first entry and another on its third. -/
def twoErrors : Trace :=
  ⟨#[⟨some 1, some 0, some "", [], [], some "early"⟩, .ofLine 2,
    ⟨some 3, some 0, some "", [], [], some "boom"⟩, .ofLine 4]⟩

/-- A document of it. -/
def twoErrorsText : String := "[[[1,0,\"\",[],[],\"early\"],[2],[3,0,\"\",[],[],\"boom\"],[4]]]"

/-- However the trace with two errors is played, it is the second that is raised. -/
theorem twoErrors_raised :
    ((idle ⟨9, 9⟩).load twoErrorsText).2 = .ok ()
    ∧ ∀ ceilings : List Nat, (∀ ceiling ∈ ceilings, 0 < ceiling) → 4 ≤ ceilings.length →
        (((idle ⟨9, 9⟩).load twoErrorsText).1.playLines ceilings).1
          = ended ⟨9, 9⟩ twoErrors 1 (.failed (.runtime "boom")) := by
  have hread : Trace.read twoErrorsText = .ok twoErrors := Trace.read_of_decode rfl rfl rfl
  have hload : ((idle ⟨9, 9⟩).load twoErrorsText).2 = .ok () := by rw [load_of_read hread]
  refine ⟨hload, fun ceilings hc hlength => ?_⟩
  obtain ⟨t, i, ending, htrace, -, hsettles, hplay⟩ := load_settles hload
  have ht : t = twoErrors := by
    rw [load_of_read hread] at htrace
    injection htrace with htrace
    exact htrace.symm
  subst ht
  have hraises : twoErrors.RaisesAt 2 "boom" := by
    refine ⟨by omega, by decide, fun j hpos hlt => ?_⟩
    have hj : j = 1 := by omega
    rw [hj]
    rfl
  have hlimits : ∀ j, j < 2 → twoErrors.limit? ⟨9, 9⟩ j = none := by decide
  obtain ⟨hi, rfl⟩ := hsettles.raised 2 "boom" hraises hlimits
  injection hi with hi
  subst hi
  obtain ⟨hover, hended⟩ := hplay ceilings hc
  exact (hended (hover hlength)).1

/-- An error may be passed over. In a trace of two entries with an error on the first one, two calls
with small steps to spare play to the end, at no limit, and no failure is told. -/
theorem first_error_passed_over :
    let source := "[[[1,0,\"\",[],[],\"boom\"],[2]]]"
    let t : Trace := ⟨#[⟨some 1, some 0, some "", [], [], some "boom"⟩, .ofLine 2]⟩
    let p := (idle ⟨9, 9⟩).load source
    p.2 = .ok () ∧ p.1.trace = some t ∧ t.error? 0 = some "boom"
    ∧ (∀ j, j < t.entries.size → t.limit? ⟨9, 9⟩ j = none)
    ∧ p.1.playLines [9, 9]
        = (ended ⟨9, 9⟩ t 1 .normal, [.ok ⟨true, true, some 2, 1⟩, .ok ⟨false, true, none, 1⟩])
    ∧ (p.1.playLines [9, 9]).1.isDone = true ∧ (p.1.playLines [9, 9]).1.failure = none := by
  intro source t p
  have hread : Trace.read source = .ok t := by
    unfold source t
    exact Trace.read_of_decode rfl rfl rfl
  have hp : p = (standing ⟨9, 9⟩ t 0, .ok ()) := load_of_read hread
  have hplay : p.1.playLines [9, 9]
      = (ended ⟨9, 9⟩ t 1 .normal, [.ok ⟨true, true, some 2, 1⟩, .ok ⟨false, true, none, 1⟩]) := by
    rw [hp]
    rfl
  refine ⟨?_, ?_, rfl, by decide, hplay, ?_, ?_⟩
  · rw [hp]
  · rw [hp]
    rfl
  · rw [hplay]
    rfl
  · rw [hplay]
    rfl

end Player

end Retrace
