import Retrace.Proofs.Session.Completion
import Retrace.Proofs.Session.Reconstruction
import Retrace.Proofs.Trace.LineRuns
/-!
# A run counts the line runs of its trace

A session counts its steps while it plays, and captures a snapshot at each stop; `Trace.lineCount` counts
runs of entries without playing anything. For a trace in which no small step fails and no run is longer
than a step may go, they agree: one step for each run, and the stops are where the later runs begin
(`line_runs_of_completed`). A trace that begins with entries without a line has one step more, for the
first one is spent on coming to its first run.
-/

namespace Retrace

open Session (Operation IsPlaying)

/-- The source of a run stays the one that was loaded. -/
theorem Ledger.source_run {c : Config} {t : Trace} (hc : 0 < c.maxMicroSteps) {l : Ledger}
    (h : ∃ captured, IsPlaying c t l.session captured) {ops : List Operation}
    (hops : .reset ∉ ops) : (l.run ops).source = l.source := by
  induction ops generalizing l with
  | nil => rfl
  | cons op ops ih =>
    rw [List.mem_cons, not_or] at hops
    have hop : op ≠ .reset := fun he => hops.1 he.symm
    obtain ⟨captured, hplaying⟩ := h
    have hsession := (l.perform_of_ne_reset hop).1
    have hsource : (l.perform op).source = l.source := by
      show (if l.session.execution.started then l.source else l.session.source) = l.source
      rw [hplaying.playing.started, if_pos rfl]
    show ((l.perform op).run ops).source = l.source
    rw [ih ⟨_, hsession ▸ hplaying.perform hc hop⟩ hops.2, hsource]

/-- A session that is paced and has come to the end of a trace that fits captured every stop of the
trace, at one step each, and found the end at one step more. -/
theorem Session.IsPaced.of_completed {c : Config} {t : Trace} {s : Session}
    {captured : List Snapshot} {steps : Nat} (hc : 0 < c.maxMicroSteps)
    (h : IsPaced c t s captured steps) (hfits : t.Fits c.player)
    (hcompleted : s.playback.status.completed = true) :
    s.execution.counters.totalSteps = (t.stopsFrom c.maxMicroSteps 0).length + 1
    ∧ captured.map Snapshot.bare = t.copies (t.stopsFrom c.maxMicroSteps 0) := by
  have hdone := h.session.done_of_completed hcompleted
  obtain ⟨stops, hprogress, hcopies⟩ := h.session.playing.progress
  have hstops : stops = t.stopsFrom c.maxMicroSteps 0 := by
    rw [hprogress.eq_of_isDone hdone, Trace.reachedStops_of_no_failure hc hfits.no_failure]
  rw [hstops] at hcopies
  have hlength : captured.length = (t.stopsFrom c.maxMicroSteps 0).length := by
    have hentries := (Trace.stopsFrom_increasing (t := t) hc 0).2
    rw [← Trace.length_copies fun q hq => (hentries q hq).2, ← hcopies, List.length_map]
  refine ⟨?_, hcopies⟩
  rw [h.paced.total, h.paced.finished hdone, hlength]

/-- Take any valid configuration and any trace without an error, no longer and no deeper than the player
may go, in which no run of entries on one line, and no beginning without a line, is longer than the
ceiling on small steps. A new session that plays it by itself completes. And do anything with a session,
resets included: if it is complete, and the run it completed is of this trace, then it counts as many
steps as the trace has line runs, and what it captured are copies of the first entries of all runs but
the first, in their order. If the trace begins without a line, it captured the first entries of all
runs, and took a step more. -/
theorem line_runs_of_completed {c : Config} {t : Trace} {s : Session} (hnew : Session.new? c = .ok s)
    (hfits : t.Fits c.player) (hruns : t.RunsWithin c.maxMicroSteps) :
    t.lineCount = t.runStarts.length
    ∧ (∀ source, Trace.read source = .ok t → ∃ moves, .reset ∉ moves ∧
        let l := (Ledger.opened s).run (.setSource source :: .start :: moves)
        (s.setSource source).1.start.1.await none = (l.session, true)
        ∧ l.source = source ∧ l.session.playback.status.completed = true)
    ∧ ∀ ops : List Operation,
        let l := (Ledger.opened s).run ops
        Trace.read l.source = .ok t → l.session.playback.status.completed = true →
        l.session = s.run ops
        ∧ ((t.line? 0).isSome = true →
            l.session.execution.counters.totalSteps = t.lineCount
            ∧ l.captured.map Snapshot.bare = t.copies t.runStarts.tail)
        ∧ (t.line? 0 = none →
            l.session.execution.counters.totalSteps = t.lineCount + 1
            ∧ l.captured.map Snapshot.bare = t.copies t.runStarts) := by
  obtain ⟨hidle, hc⟩ := Session.isIdle_of_new? hnew
  refine ⟨t.lineCount_eq, ?_, ?_⟩
  · intro source hread
    obtain ⟨hstarted, hended, hcompleted⟩ := Session.completes_alone hnew hread hfits.no_failure
    obtain ⟨moves, hown, hrun⟩ := Session.exists_run_await (s.setSource source).1.start.1 none
    have hmoves : .reset ∉ moves := by
      intro hmem
      have := hown .reset hmem
      cases this
    refine ⟨moves, hmoves, ?_⟩
    intro l
    have hsession : l.session = ((s.setSource source).1.start.1.await none).1 := by
      rw [hrun]
      exact Ledger.run_session _ _
    refine ⟨?_, ?_, ?_⟩
    · rw [hsession, ← hended]
    · obtain ⟨bounds, hs⟩ := Session.eq_of_new? hnew
      have hloaded : (((Ledger.opened s).perform (.setSource source)).perform .start).source
          = source := by
        rw [hs]
        rfl
      exact (Ledger.source_run hc hstarted hmoves).trans hloaded
    · rw [hsession]
      exact hcompleted
  · intro ops l hread hcompleted
    have hkept : Ledger.Kept c l := (Ledger.kept_opened hnew).run hc ops
    have hsession : l.session = s.run ops := Ledger.run_session _ ops
    refine ⟨hsession, ?_⟩
    have hpos := Trace.size_pos_of_read hread
    cases hkept with
    | idle h =>
      -- an idle session is not complete
      rw [h.not_completed] at hcompleted
      cases hcompleted
    | playing t' hread' h =>
      obtain rfl := Except.ok.inj (hread'.symm.trans hread)
      obtain ⟨htotal, hcopies⟩ := h.of_completed hc hfits hcompleted
      rw [htotal, hcopies, t'.lineCount_eq]
      refine ⟨?_, ?_⟩
      · intro hline
        rw [Trace.runStarts_of_line hc hpos hruns hline]
        exact ⟨rfl, rfl⟩
      · intro hline
        rw [Trace.runStarts_of_no_line hc hpos hruns hline]
        exact ⟨rfl, rfl⟩

/-- A trace with an entry that has no line, and a line that it comes back to. -/
def Trace.gapped : Trace := ⟨#[.ofLine 1, .blank, .ofLine 2, .ofLine 2, .ofLine 1]⟩

/-- A document of it. -/
def Trace.gappedText : String := "[[[1],[],[2],[2],[1]]]"

/-- A trace that begins without a line. -/
def Trace.leading : Trace := ⟨#[.blank, .ofLine 1, .ofLine 1, .ofLine 2]⟩

/-- A document of it. -/
def Trace.leadingText : String := "[[[],[1],[1],[2]]]"

/-- Entries that only give a line fit, if they are few enough. -/
theorem Trace.fits_of_plain {t : Trace} {limits : PlayerLimits}
    (hplain : ∀ e ∈ t.entries.toList, e.error = none ∧ e.frames = [])
    (hsize : t.entries.size ≤ limits.maxSteps) : t.Fits limits := by
  have hentry : ∀ (i : Nat) (e : Entry), t.entries[i]? = some e → e.error = none ∧ e.frames = [] := by
    intro i e he
    rw [← Array.getElem?_toList] at he
    exact hplain e (List.mem_of_getElem? he)
  refine ⟨fun i e he => (hentry i e he).1, hsize, ?_⟩
  intro i e he
  rw [(hentry i e he).2]
  exact Nat.zero_le _

/-- Both traces are played to their end, the first one at three steps for its three runs, the second one
at three steps for its two. -/
theorem line_runs_of_gapped_and_leading :
    let moves : List Operation := [.start, .move (.begin 1), .forward, .forward]
    let gapped := (Ledger.opened .standard).run (.setSource Trace.gappedText :: moves)
    let leading := (Ledger.opened .standard).run (.setSource Trace.leadingText :: moves)
    Session.new? .standard = .ok .standard
    ∧ Trace.gapped.Fits Config.standard.player ∧ Trace.gapped.RunsWithin Config.standard.maxMicroSteps
    ∧ Trace.leading.Fits Config.standard.player ∧ Trace.leading.RunsWithin Config.standard.maxMicroSteps
    ∧ gapped.session.playback.status.completed = true
    ∧ gapped.session.execution.counters.totalSteps = 3
    ∧ gapped.captured.map Snapshot.bare = Trace.gapped.copies [2, 4]
    ∧ leading.session.playback.status.completed = true
    ∧ leading.session.execution.counters.totalSteps = 3
    ∧ leading.captured.map Snapshot.bare = Trace.leading.copies [1, 3] := by
  intro moves gapped leading
  have hnew : Session.new? .standard = .ok .standard := by rfl
  have hgapped : Trace.read Trace.gappedText = .ok .gapped := Trace.read_of_decode rfl rfl rfl
  have hleading : Trace.read Trace.leadingText = .ok .leading := Trace.read_of_decode rfl rfl rfl
  have hfits : Trace.gapped.Fits Config.standard.player :=
    Trace.fits_of_plain (by simp [Trace.gapped, Entry.ofLine, Entry.blank]) (by decide)
  have hfits' : Trace.leading.Fits Config.standard.player :=
    Trace.fits_of_plain (by simp [Trace.leading, Entry.ofLine, Entry.blank]) (by decide)
  have hruns : Trace.gapped.RunsWithin Config.standard.maxMicroSteps := by
    unfold Trace.RunsWithin
    decide
  have hruns' : Trace.leading.RunsWithin Config.standard.maxMicroSteps := by
    unfold Trace.RunsWithin
    decide
  have hcompleted : gapped.session.playback.status.completed = true := by decide +kernel
  have hcompleted' : leading.session.playback.status.completed = true := by decide +kernel
  have hsource : gapped.source = Trace.gappedText := by decide +kernel
  have hsource' : leading.source = Trace.leadingText := by decide +kernel
  obtain ⟨-, -, hcounts⟩ := line_runs_of_completed hnew hfits hruns
  obtain ⟨-, hall, -⟩ := hcounts (.setSource Trace.gappedText :: moves)
    ((congrArg Trace.read hsource).trans hgapped) hcompleted
  obtain ⟨-, -, hcounts'⟩ := line_runs_of_completed hnew hfits' hruns'
  obtain ⟨-, -, hall'⟩ := hcounts' (.setSource Trace.leadingText :: moves)
    ((congrArg Trace.read hsource').trans hleading) hcompleted'
  obtain ⟨htotal, hcaptured⟩ := hall (by decide)
  obtain ⟨htotal', hcaptured'⟩ := hall' (by decide)
  exact ⟨hnew, hfits, hruns, hfits', hruns', hcompleted, htotal, hcaptured, hcompleted', htotal',
    hcaptured'⟩

end Retrace
