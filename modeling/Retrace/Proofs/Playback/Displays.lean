import Retrace.Proofs.Playback.Reports
/-!
# What observers are shown of the work

Besides the results and the states observers are shown what a step finds: snapshots, and the calls and
returns that are read off them. The controls show nothing of this, and neither does what follows a step, so
all of it comes from the steps themselves.

`Displays` relates two moments of playback by what was shown in between, which is told in one piece.
-/

namespace Retrace

/-- Whether observers are shown something of the program: a snapshot, or a change of the call tree. -/
def Event.showsProgram : Event → Bool
  | snapshot _ => true
  | call _ => true
  | _ => false

namespace Playback

variable {σ : Type} {w : Workload σ} {p q r : Playback σ} {shown : List Event}

/-- From the first to the second observers were told more, and what it shows of the program stands in it in
one piece. -/
def Displays (p q : Playback σ) (shown : List Event) : Prop :=
  ∃ before after, (∀ e ∈ before ++ after, e.showsProgram = false) ∧
    q.log.toList = p.log.toList ++ (before ++ shown ++ after)

theorem displays_of_events (events : List Event) (h : q.log.toList = p.log.toList ++ events)
    (hquiet : ∀ e ∈ events, e.showsProgram = false) : p.Displays q [] :=
  ⟨events, [], by simpa using hquiet, by simpa using h⟩

theorem displays_of_log_eq (h : q.log = p.log) : p.Displays q [] :=
  displays_of_events [] (by rw [h, List.append_nil]) nofun

theorem Displays.refl (p : Playback σ) : p.Displays p [] := displays_of_log_eq rfl

theorem Displays.after (h : q.Displays r shown) (h' : p.Displays q []) : p.Displays r shown := by
  obtain ⟨before, after, hquiet, hlog⟩ := h
  obtain ⟨first, second, hquiet', hlog'⟩ := h'
  refine ⟨first ++ second ++ before, after, fun e he => ?_, ?_⟩
  · rw [List.append_assoc, List.mem_append] at he
    rcases he with he | he
    · exact hquiet' e he
    · exact hquiet e he
  · rw [hlog, hlog', List.append_nil]
    simp only [List.append_assoc]

theorem Displays.then (h : p.Displays q shown) (h' : q.Displays r []) : p.Displays r shown := by
  obtain ⟨before, after, hquiet, hlog⟩ := h
  obtain ⟨first, second, hquiet', hlog'⟩ := h'
  refine ⟨before, after ++ (first ++ second), fun e he => ?_, ?_⟩
  · rw [← List.append_assoc, List.mem_append] at he
    rcases he with he | he
    · exact hquiet e he
    · exact hquiet' e he
  · rw [hlog', hlog, List.append_nil]
    simp only [List.append_assoc]

/-- States show nothing of the program. -/
theorem TellsStates.displays (h : p.TellsStates q) : p.Displays q [] := by
  obtain ⟨told, hlog⟩ := h
  refine displays_of_events _ hlog fun e he => ?_
  obtain ⟨s, -, rfl⟩ := List.mem_map.mp he
  rfl

theorem displays_notify {e : Event} (h : e.showsProgram = false) : p.Displays (p.notify e) [] :=
  displays_of_events _ Array.toList_push fun _ he => List.mem_singleton.mp he ▸ h

theorem displays_complete (p : Playback σ) : p.Displays p.complete [] := by
  rcases p.complete_cases with ⟨-, hsame⟩ | ⟨-, q, htells, -, hcomplete⟩
  · rw [hsame]
    exact .refl p
  · rw [hcomplete]
    exact (displays_notify rfl).after htells.displays

theorem displays_fail (p : Playback σ) (e : SessionFailure) : p.Displays (p.fail e) [] :=
  (tellsStates_stop _).displays.after (displays_notify rfl)

end Playback

end Retrace
