import Mathlib.Data.Nat.Find
import Retrace.Proofs.Trace.Walk
import Retrace.Proofs.Trace.Reading
/-!
# A trace ends in one way, however it is played

Where a play of a trace ends can be said on the trace alone: at the first entry that no small step
leaves for the next one (`EndsAt`). A player is free in how many small steps it takes at a time, and
stops now on another line, now at its ceiling; but it takes the same small steps, so it comes to that
entry and ends there in the same way (`load_endsAt`).

`Played` is what a player and its results are after any number of calls with any ceilings: either it
stands on an entry up to the one where the trace ends, with more to play after every call; or one call
gave the ending, those before it had more to play, and those after it found nothing to do.
-/

namespace Retrace

/-- How the play of a trace ends. -/
inductive Ending where
  /-- The last entry is left. -/
  | normal
  | failed (e : RunFailure)
deriving DecidableEq, Repr

namespace Trace

/-- How a play ends with the small step that leaves entry `p`, if it does. Of several reasons the
first counts: the limit on small steps, the limit on the call stack, the end of the trace, the error
of the entry ahead. -/
def ending? (t : Trace) (limits : PlayerLimits) (p : Nat) : Option Ending :=
  if limits.maxSteps ≤ p then some (.failed (.stepLimit limits.maxSteps))
  else if limits.maxStackSize < t.entries[p]?.elim 0 (·.frames.length) then
    some (.failed (.stackLimit limits.maxStackSize))
  else if p + 1 = t.entries.size then some .normal
  else (t.entries[p + 1]?.bind Entry.error).map fun message => .failed (.runtime message)

/-- Entry `p` is the first one at which a play ends, and this is how. -/
structure EndsAt (t : Trace) (limits : PlayerLimits) (p : Nat) (ending : Ending) : Prop where
  here : t.ending? limits p = some ending
  first : ∀ q, q < p → t.ending? limits q = none

section EndsAt

variable {t : Trace} {limits : PlayerLimits} {p : Nat}

/-- A trace ends in one place and in one way. -/
theorem EndsAt.unique {q : Nat} {ending ending' : Ending} (h : t.EndsAt limits p ending)
    (h' : t.EndsAt limits q ending') : p = q ∧ ending = ending' := by
  have hpq : p = q := by
    rcases Nat.lt_trichotomy p q with hlt | heq | hgt
    · exact nomatch h.here.symm.trans (h'.first p hlt)
    · exact heq
    · exact nomatch h'.here.symm.trans (h.first q hgt)
  subst hpq
  exact ⟨rfl, Option.some.inj (h.here.symm.trans h'.here)⟩

theorem ending?_of_failure {e : RunFailure} (h : t.failure? limits p = some e) :
    t.ending? limits p = some (.failed e) := by
  unfold failure? at h
  unfold ending?
  by_cases hsteps : limits.maxSteps ≤ p
  · rw [if_pos hsteps] at h ⊢
    injection h with h
    rw [h]
  · rw [if_neg hsteps] at h ⊢
    by_cases hstack : limits.maxStackSize < t.entries[p]?.elim 0 (·.frames.length)
    · rw [if_pos hstack] at h ⊢
      injection h with h
      rw [h]
    · rw [if_neg hstack] at h ⊢
      obtain ⟨message, hm, rfl⟩ := Option.map_eq_some_iff.mp h
      -- the last entry has no entry ahead that could carry an error
      have hlast : p + 1 ≠ t.entries.size := by
        intro he
        rw [Array.getElem?_eq_none (by omega)] at hm
        cases hm
      rw [if_neg hlast, hm]
      rfl

theorem ending?_of_no_failure (h : t.failure? limits p = none) :
    t.ending? limits p = if p + 1 = t.entries.size then some .normal else none := by
  obtain ⟨hsteps, hstack, herror⟩ := Player.limits_of_no_failure h
  unfold ending?
  rw [if_neg hsteps, if_neg hstack, herror]
  rfl

/-- A trace with an entry ends: no small step goes on from the last entry. -/
theorem exists_endsAt (limits : PlayerLimits) (hpos : 0 < t.entries.size) :
    ∃ p ending, t.EndsAt limits p ending ∧ p < t.entries.size := by
  have hlast : (t.ending? limits (t.entries.size - 1)).isSome = true := by
    cases hfail : t.failure? limits (t.entries.size - 1) with
    | some e => rw [ending?_of_failure hfail]; rfl
    | none => rw [ending?_of_no_failure hfail, if_pos (by omega)]; rfl
  have hends : ∃ p, (t.ending? limits p).isSome = true := ⟨_, hlast⟩
  obtain ⟨ending, hending⟩ := Option.isSome_iff_exists.mp (Nat.find_spec hends)
  have hle : Nat.find hends ≤ t.entries.size - 1 := Nat.find_min' hends hlast
  refine ⟨Nat.find hends, ending, ⟨hending, ?_⟩, by omega⟩
  intro q hq
  simpa using Nat.find_min hends hq

/-- Up to where a trace ends no small step fails. -/
theorem EndsAt.no_failure {ending : Ending} (h : t.EndsAt limits p ending) {q : Nat}
    (hq : q < p) : t.failure? limits q = none := by
  cases hfail : t.failure? limits q with
  | none => rfl
  | some e =>
    have hnone := h.first q hq
    rw [ending?_of_failure hfail] at hnone
    cases hnone

/-- A small step without a failure from where the trace ends leaves the last entry. -/
theorem EndsAt.normal_of_no_failure {ending : Ending} (h : t.EndsAt limits p ending)
    (hfail : t.failure? limits p = none) : ending = .normal ∧ p + 1 = t.entries.size := by
  have hhere := h.here
  rw [ending?_of_no_failure hfail] at hhere
  by_cases hlast : p + 1 = t.entries.size
  · rw [if_pos hlast] at hhere
    injection hhere with hhere
    exact ⟨hhere.symm, hlast⟩
  · rw [if_neg hlast] at hhere
    cases hhere

/-- Only a trace with more entries than small steps are allowed comes to that limit. -/
theorem EndsAt.lt_of_stepLimit {ending : Ending} {steps : Nat} (h : t.EndsAt limits p ending)
    (hp : p < t.entries.size) (hending : ending = .failed (.stepLimit steps)) :
    limits.maxSteps < t.entries.size := by
  by_contra hle
  have hhere := h.here
  unfold ending? at hhere
  rw [if_neg (by omega), hending] at hhere
  -- none of the other endings is that limit
  split at hhere
  · cases hhere
  · split at hhere
    · cases hhere
    · obtain ⟨message, -, he⟩ := Option.map_eq_some_iff.mp hhere
      cases he

/-- Only a trace with no more entries than small steps are allowed is played to its end. -/
theorem EndsAt.le_of_normal (h : t.EndsAt limits p .normal) :
    t.entries.size ≤ limits.maxSteps := by
  have hhere := h.here
  unfold ending? at hhere
  split at hhere
  · cases hhere
  · split at hhere
    · cases hhere
    · split at hhere
      · omega
      · obtain ⟨message, -, he⟩ := Option.map_eq_some_iff.mp hhere
        cases he

end EndsAt

end Trace

namespace Player

/-- The player when the play has ended with the small step that leaves entry `p`. It stands on that
entry, or on the next one if that raised an error. -/
def ended (limits : PlayerLimits) (t : Trace) (p : Nat) : Ending → Player
  | .normal => { standing limits t p with running := false }
  | .failed e => { standing limits t (failedAt p e) with failure := some e }

/-- Goes on to the next line once for each ceiling. The second part is what came of it each time. -/
def playLines (p : Player) : List Nat → Player × List (Except RunFailure LineStep)
  | [] => (p, [])
  | ceiling :: ceilings =>
    let (p, r) := p.stepToNextLine ceiling
    let (p, rs) := p.playLines ceilings
    (p, r :: rs)

/-- A result with more to play. -/
def GoesOn (r : Except RunFailure LineStep) : Prop := ∃ line, r = .ok line ∧ line.hasMore = true

/-- A result that tells how the play ended. -/
def Tells (r : Except RunFailure LineStep) : Ending → Prop
  | .normal => ∃ line, r = .ok line ∧ line.hasMore = false
  | .failed e => r = .error e

/-- The result that finds nothing to do. -/
def nothingToDo : Except RunFailure LineStep := .ok (.finished 0)

theorem isDone_ended (limits : PlayerLimits) (t : Trace) (p : Nat) (ending : Ending) :
    (ended limits t p ending).isDone = true := by
  cases ending <;> rfl

theorem stepCount_ended (limits : PlayerLimits) (t : Trace) (p : Nat) (ending : Ending) :
    (ended limits t p ending).position = (ended limits t p ending).stepCount := by
  cases ending <;> rfl

/-- A player that is done does nothing any more. -/
theorem stepToNextLine_of_isDone {p : Player} (h : p.isDone = true) (ceiling : Nat) :
    p.stepToNextLine ceiling = (p, nothingToDo) := by
  unfold stepToNextLine
  rw [h, Bool.or_true, if_pos rfl]
  rfl

theorem playLines_of_isDone {p : Player} (h : p.isDone = true) (ceilings : List Nat) :
    p.playLines ceilings = (p, List.replicate ceilings.length nothingToDo) := by
  induction ceilings with
  | nil => rfl
  | cons ceiling ceilings ih =>
    unfold playLines
    simp only [stepToNextLine_of_isDone h ceiling, ih]
    rfl

/-- A player on a trace that ends at entry `p`, after some calls, and what came of them. -/
inductive Played (limits : PlayerLimits) (t : Trace) (p : Nat) (ending : Ending) :
    Player × List (Except RunFailure LineStep) → Prop where
  | underWay (q : Nat) (hq : q ≤ p) (results : List (Except RunFailure LineStep))
      (hmore : ∀ r ∈ results, GoesOn r) :
      Played limits t p ending (standing limits t q, results)
  | finished (before : List (Except RunFailure LineStep)) (hmore : ∀ r ∈ before, GoesOn r)
      (last : Except RunFailure LineStep) (hlast : Tells last ending) (further : Nat) :
      Played limits t p ending
        (ended limits t p ending, before ++ last :: List.replicate further nothingToDo)

section Played

variable {limits : PlayerLimits} {t : Trace} {p : Nat} {ending : Ending}

/-- What one call does on the way to where the trace ends: it goes on by an entry at least, or the
play ends. -/
theorem stepToNextLine_of_endsAt (h : t.EndsAt limits p ending) (hp : p < t.entries.size) {q : Nat}
    (hq : q ≤ p) {ceiling : Nat} (hc : 0 < ceiling) :
    (∃ q' r, (standing limits t q).stepToNextLine ceiling = (standing limits t q', r)
      ∧ GoesOn r ∧ q < q' ∧ q' ≤ p) ∨
    (∃ r, (standing limits t q).stepToNextLine ceiling = (ended limits t p ending, r)
      ∧ Tells r ending) := by
  have houtcome : Outcome limits t (t.line? q) ceiling 0 q _ :=
    outcome_stepToNextLine limits t (by omega)
  -- small steps without a failure lead beyond the end only from the last entry
  have hbeyond : ∀ {q'}, Clear limits t (t.line? q) q q' → p < q' →
      ending = .normal ∧ p + 1 = t.entries.size :=
    fun hclear hlt => h.normal_of_no_failure (hclear.no_failure p hq hlt)
  generalize (standing limits t q).stepToNextLine ceiling = result at houtcome ⊢
  cases houtcome with
  | stopped q' hclear hlt hle hceiling hstop =>
    refine Or.inl ⟨q', _, rfl, ⟨_, rfl, rfl⟩, ?_, ?_⟩
    · rcases hstop with hstop | hstop <;> omega
    · by_contra hpq
      have := (hbeyond hclear (by omega)).2
      omega
  | failed q' e hclear hsame hlt hle hceiling hfailure =>
    refine Or.inr ?_
    have hending : ending = .failed e ∧ q' = p := by
      rcases Nat.lt_trichotomy q' p with hbefore | heq | hafter
      · rw [h.no_failure hbefore] at hfailure
        cases hfailure
      · rw [heq] at hfailure
        have hhere := h.here
        rw [Trace.ending?_of_failure hfailure] at hhere
        injection hhere with hhere
        exact ⟨hhere.symm, heq⟩
      · have := (hbeyond hclear hafter).2
        omega
    obtain ⟨rfl, rfl⟩ := hending
    exact ⟨_, rfl, rfl⟩
  | ended hclear hceiling =>
    obtain ⟨rfl, hlast⟩ := hbeyond hclear hp
    have hpos : t.entries.size - 1 = p := by omega
    rw [hpos]
    exact Or.inr ⟨_, rfl, _, rfl, rfl⟩

/-- The invariant holds of any number of calls. The induction is on the calls. -/
theorem played_playLines (h : t.EndsAt limits p ending) (hp : p < t.entries.size)
    {ceilings : List Nat} (hc : ∀ ceiling ∈ ceilings, 0 < ceiling) {q : Nat} (hq : q ≤ p) :
    Played limits t p ending ((standing limits t q).playLines ceilings)
    ∧ (((standing limits t q).playLines ceilings).1.isDone = false →
        q + ceilings.length ≤ p) := by
  induction ceilings generalizing q with
  | nil => exact ⟨.underWay q hq [] (by simp), fun _ => hq⟩
  | cons ceiling ceilings ih =>
    rw [List.forall_mem_cons] at hc
    rcases stepToNextLine_of_endsAt h hp hq hc.1 with
      ⟨q', r, hstep, hmore, hlt, hle⟩ | ⟨r, hstep, htells⟩
    · -- the call is followed by those from the entry it comes to
      obtain ⟨hplayed, hdone⟩ := ih hc.2 hle
      unfold playLines
      simp only [hstep]
      generalize (standing limits t q').playLines ceilings = rest at hplayed hdone
      refine ⟨?_, fun hgo => ?_⟩
      · cases hplayed with
        | underWay q'' hq'' results hresults =>
          refine .underWay q'' hq'' (r :: results) ?_
          rw [List.forall_mem_cons]
          exact ⟨hmore, hresults⟩
        | finished before hbefore last hlast further =>
          refine .finished (r :: before) ?_ last hlast further
          rw [List.forall_mem_cons]
          exact ⟨hmore, hbefore⟩
      · have := hdone hgo
        rw [List.length_cons]
        omega
    · -- the calls after the last one have nothing to do
      have hover := isDone_ended limits t p ending
      unfold playLines
      simp only [hstep, playLines_of_isDone hover]
      refine ⟨.finished [] (by simp) r htells ceilings.length, fun hgo => ?_⟩
      rw [hover] at hgo
      cases hgo

end Played

theorem load_of_read {p : Player} {source : String} {t : Trace} (h : Trace.read source = .ok t) :
    p.load source = (standing p.limits t 0, .ok ()) := by
  unfold load reset
  rw [h]
  rfl

theorem exists_read_of_load {p : Player} {source : String} (h : (p.load source).2 = .ok ()) :
    ∃ t, Trace.read source = .ok t := by
  unfold load at h
  split at h
  next t hread => exact ⟨t, hread⟩
  next => cases h

/-- Take any player, with any limits, that has loaded a trace. There is a first entry at which a play
of the trace ends, and one way in which it does; that way is the limit on small steps only if the
trace has more entries than small steps are allowed, and the end of the trace only if it has not. Go
on to the next line as often as you like, each time with any ceiling but zero. Then the position is
the number of small steps taken. The play is over after as many calls as there are entries, if not
before. As long as it is not, every call had more to play and no entry beyond that one was reached. Once
it is, the player is in the one state that the trace and the limits give, one call told the ending, all
before it had more to play and all after it had nothing to do; and so it is with every further call,
also with a ceiling of zero. -/
theorem load_endsAt {p : Player} {source : String} (hload : (p.load source).2 = .ok ()) :
    ∃ t, (p.load source).1.trace = some t ∧ ∃ i ending, t.EndsAt p.limits i ending
      ∧ i < t.entries.size
      ∧ (∀ steps, ending = .failed (.stepLimit steps) → p.limits.maxSteps < t.entries.size)
      ∧ (ending = .normal → t.entries.size ≤ p.limits.maxSteps)
      ∧ ∀ ceilings : List Nat, (∀ ceiling ∈ ceilings, 0 < ceiling) →
          let played := (p.load source).1.playLines ceilings
          played.1.position = played.1.stepCount
          ∧ (t.entries.size ≤ ceilings.length → played.1.isDone = true)
          ∧ (played.1.isDone = false → played.1.position ≤ i ∧ ∀ r ∈ played.2, GoesOn r)
          ∧ (played.1.isDone = true →
              played.1 = ended p.limits t i ending
              ∧ (∃ before last further, played.2 = before ++ last :: List.replicate further nothingToDo
                  ∧ (∀ r ∈ before, GoesOn r) ∧ Tells last ending)
              ∧ ∀ ceiling, played.1.stepToNextLine ceiling = (played.1, nothingToDo)) := by
  obtain ⟨t, hread⟩ := exists_read_of_load hload
  rw [load_of_read hread]
  have hpos := Trace.size_pos_of_read hread
  obtain ⟨i, ending, hends, hi⟩ := Trace.exists_endsAt p.limits hpos
  refine ⟨t, rfl, i, ending, hends, hi, fun steps => hends.lt_of_stepLimit hi, ?_, ?_⟩
  · rintro rfl
    exact hends.le_of_normal
  intro ceilings hc played
  obtain ⟨hplayed, hprogress⟩ := played_playLines hends hi hc (Nat.zero_le i)
  have hover : t.entries.size ≤ ceilings.length → played.1.isDone = true := by
    intro hlength
    cases hdone : played.1.isDone with
    | true => rfl
    | false =>
      have := hprogress hdone
      omega
  generalize hresult : (standing p.limits t 0).playLines ceilings = result at hplayed
  have hresult : played = result := hresult
  rw [hresult] at hover ⊢
  cases hplayed with
  | underWay q hq results hmore =>
    exact ⟨rfl, hover, fun _ => ⟨hq, hmore⟩, fun hdone => by cases hdone⟩
  | finished before hmore last hlast further =>
    have hdone := isDone_ended p.limits t i ending
    refine ⟨stepCount_ended p.limits t i ending, hover, fun hgo => ?_, fun _ => ⟨rfl, ?_, ?_⟩⟩
    · rw [hdone] at hgo
      cases hgo
    · exact ⟨before, last, further, rfl, hmore, hlast⟩
    · exact stepToNextLine_of_isDone hdone

/-- A trace of four entries. -/
def fourEntries : Trace := ⟨#[.ofLine 1, .ofLine 1, .ofLine 2, .ofLine 3]⟩

/-- A document of it. -/
def fourEntriesText : String := "[[[1],[1],[2],[3]]]"

theorem load_fourEntriesText (limits : PlayerLimits) :
    (idle limits).load fourEntriesText = (standing limits fourEntries 0, .ok ()) :=
  load_of_read (Trace.read_of_decode rfl rfl rfl)

/-- With two small steps allowed the four entries are never played to the end: any four calls end on
the third entry, at the limit. -/
theorem fourEntries_stepLimit :
    ((idle ⟨2, 9⟩).load fourEntriesText).2 = .ok ()
    ∧ ∀ ceilings : List Nat, (∀ ceiling ∈ ceilings, 0 < ceiling) → 4 ≤ ceilings.length →
        (((idle ⟨2, 9⟩).load fourEntriesText).1.playLines ceilings).1
          = ended ⟨2, 9⟩ fourEntries 2 (.failed (.stepLimit 2)) := by
  have hload : ((idle ⟨2, 9⟩).load fourEntriesText).2 = .ok () := by rw [load_fourEntriesText]
  refine ⟨hload, fun ceilings hc hlength => ?_⟩
  obtain ⟨t, htrace, i, ending, hends, -, -, -, hplay⟩ := load_endsAt hload
  have ht : t = fourEntries := by
    rw [load_fourEntriesText] at htrace
    injection htrace with htrace
    exact htrace.symm
  subst ht
  -- the third entry is the first one that no small step leaves for the next one
  have hnot : ∀ q, q < 2 → fourEntries.ending? ⟨2, 9⟩ q = none := by decide
  have hthird : fourEntries.ending? ⟨2, 9⟩ 2 = some (.failed (.stepLimit 2)) := by decide
  have hhere : fourEntries.ending? ⟨2, 9⟩ i = some ending := hends.here
  have hi : i = 2 := by
    rcases Nat.lt_trichotomy i 2 with hlt | heq | hgt
    · rw [hnot i hlt] at hhere
      cases hhere
    · exact heq
    · have hnone : fourEntries.ending? ⟨2, 9⟩ 2 = none := hends.first 2 hgt
      rw [hthird] at hnone
      cases hnone
  subst hi
  rw [hthird] at hhere
  injection hhere with hhere
  subst hhere
  obtain ⟨-, hover, -, hended⟩ := hplay ceilings hc
  exact (hended (hover hlength)).1

end Player

end Retrace
