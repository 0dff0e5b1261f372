import Retrace.CommandLine.Run
import Retrace.Proofs.Session.Advance
import Retrace.Proofs.Session.Completion
import Retrace.Proofs.Session.Reconstruction
/-!
# What a replay finds does not depend on its pace

A replay plays a trace to its end with nobody interfering. What it finds is told by the trace, the limits of
the player and the ceiling on small steps (`exists_findings`): the delays only say when a step is taken, and
the capacity of the history only how many of the captured snapshots are still there at the end
(`Execution.Filled`). So two replays of a trace that agree on the limits and the ceiling report the same, the
snapshots apart (`replays_agree`).
-/

namespace Retrace

namespace Execution

variable {c : Config} {t : Trace} {x y : Execution} {n : Nat} {outcome : StepOutcome}

/-- An execution with the cursor on the last snapshot, and all captured snapshots retained that there is room
for. -/
structure Filled (x : Execution) : Prop where
  valid : x.history.Valid
  last : x.history.canStepForward = false
  size : x.history.size = min x.history.capacity x.history.captures

theorem filled_new (c : Config) : Filled (.new c) where
  valid := History.valid_empty c.history
  last := rfl
  size := (Nat.min_zero _).symm

theorem Filled.step (h : Filled x) : Filled x.step.1 := by
  rcases x.history_step with hsame | ⟨shown, happended, -⟩
  · refine ⟨?_, ?_, ?_⟩ <;> rw [hsame]
    · exact h.valid
    · exact h.last
    · exact h.size
  · have hv := h.valid.withCaptures (x.history.captures + 1)
    refine ⟨?_, ?_, ?_⟩
    · rw [happended]
      exact hv.append shown
    · rw [happended]
      exact hv.append_last shown
    · have hsize : x.history.size = min x.history.capacity x.history.captures := h.size
      rw [happended, hv.append_size_last h.last, History.append_capacity, History.append_captures]
      show (if x.history.size = x.history.capacity then x.history.size else x.history.size + 1)
        = min x.history.capacity (x.history.captures + 1)
      split <;> omega

/-- A step keeps the pace. -/
theorem Paced.exists_step (hc : 0 < c.maxMicroSteps)
    (h : ∃ captured steps, Paced c t x captured steps) :
    ∃ captured steps, Paced c t x.step.1 captured steps := by
  obtain ⟨captured, steps, h⟩ := h
  obtain ⟨captured', hplaying⟩ := h.playing.exists_step hc
  exact ⟨captured', _, h.step hc hplaying⟩

/-- What is gathered from a trace that is played out, with the number of captures and that of steps. -/
theorem PlaysOut.gathered_eq (hc : 0 < c.maxMicroSteps) (h : PlaysOut n x y outcome)
    (hx : ∃ captured steps, Paced c t x captured steps) (hdone : y.player.isDone = true) :
    let stops := t.reachedStops c.player c.maxMicroSteps
    y.gathered = .ofSnapshots (t.copies stops) ∧ y.history.captures = stops.length ∧
      y.counters.totalSteps = stops.length + 1 := by
  intro stops
  obtain ⟨captured, steps, hpaced⟩ :=
    h.keeps (I := fun x => ∃ captured steps, Paced c t x captured steps)
      (fun _ => Paced.exists_step hc) hx
  obtain ⟨reached, hprogress, hcopies⟩ := hpaced.playing.progress
  obtain rfl := hprogress.eq_of_isDone hdone
  have hentries := (Trace.reachedStops_increasing (t := t) hc c.player).2
  have hlength : captured.length = stops.length := by
    rw [← Trace.length_copies hentries, ← hcopies, List.length_map]
  refine ⟨?_, hpaced.playing.captures.trans hlength, ?_⟩
  · rw [hpaced.playing.gathered, ← hcopies, Gathered.ofSnapshots_bare]
  · rw [hpaced.total, hpaced.finished hdone, hlength]

end Execution

namespace CommandLine

/-- The configuration that a replay plays with. -/
def settings (configFile : Option File) (options : ReplayOptions) : Except (List String) Config :=
  (configFile.elim (.ok Config.standard) fun file =>
    (Config.load file).mapError ConfigFileFailure.chain).map options.configure

/-- The session of a replay when it has been played out, and what observers were told. -/
def played? (configFile : Option File) (trace : File) (options : ReplayOptions) :
    Except (List String) (Session × List Event) :=
  (prepare configFile trace options).map fun s =>
    let (z, events) := (s.await none).1.drain
    (z, events.toList)

/-- The report of a session that was played out. -/
def reported (z : Session × List Event) (nanoseconds : Nat) : Report :=
  .ofSession z.1 (z.2.findSome? eventFailure?) nanoseconds

/-- The keys of a document. -/
def keys : Json.Tree → List (Option String)
  | .object members => members.map Prod.fst
  | _ => []

/-- Whether the run of a source ends in a failure. -/
def Halts (limits : PlayerLimits) (source : String) : Prop :=
  ∃ t i e, Trace.read source = .ok t ∧ t.EndsAt limits i (.failed e)

theorem replay_of_played {configFile : Option File} {trace : File} {options : ReplayOptions}
    {z : Session × List Event} (h : played? configFile trace options = .ok z) :
    replay configFile trace options
      = ⟨String.join ((z.2.filterMap (eventLine? options)).map (· ++ "\n"))
          ++ (if options.json then (reported z 0).tree.pretty ++ "\n" else (reported z 0).text),
        (reported z 0).failure.elim [] fun e => ["Replay halted", e.message]⟩ := by
  unfold played? at h
  unfold replay
  generalize prepare configFile trace options = prepared at h
  cases prepared with
  | error chain => cases h
  | ok s =>
    obtain rfl := Except.ok.inj h
    rfl

theorem replay_of_not_played {configFile : Option File} {trace : File} {options : ReplayOptions}
    {chain : List String} (h : played? configFile trace options = .error chain) :
    replay configFile trace options = ⟨"", chain⟩ := by
  unfold played? at h
  unfold replay
  generalize prepare configFile trace options = prepared at h
  cases prepared with
  | error chain' =>
    obtain rfl := Except.error.inj h
    rfl
  | ok s => cases h

/-- With a valid configuration it is the trace that tells whether a session is started. -/
theorem exists_prepare {configFile : Option File} {options : ReplayOptions} {c : Config} (trace : File)
    (hc : settings configFile options = .ok c) (hvalid : c.violation? = none) :
    ∃ s, Session.new? c = .ok s ∧ prepare configFile trace options = match trace.text with
      | .error e => .error (unreadableTrace trace.path e)
      | .ok source => match (s.setSource source).1.start with
        | (s, .ok _) => .ok s
        | (_, .error e) => .error [e.message] := by
  obtain ⟨s, hnew⟩ : ∃ s, Session.new? c = .ok s := by
    unfold Session.new?
    split
    next v hv => exact nomatch hvalid.symm.trans hv
    next => exact ⟨_, rfl⟩
  refine ⟨s, hnew, ?_⟩
  obtain ⟨config, hconfig, rfl⟩ : ∃ config, configFile.elim (.ok Config.standard) (fun file =>
      (Config.load file).mapError ConfigFileFailure.chain) = .ok config
      ∧ options.configure config = c := by
    unfold settings at hc
    generalize configFile.elim _ _ = loaded at hc
    cases loaded with
    | error chain => cases hc
    | ok config => exact ⟨config, rfl, Except.ok.inj hc⟩
  unfold prepare
  cases configFile with
  | none =>
    obtain rfl := Except.ok.inj hconfig
    cases trace.text with
    | error e => rfl
    | ok source =>
      show (Except.mapError _ (Session.new? _)).bind _ = _
      rw [hnew]
      rfl
  | some file =>
    have hloaded : (Config.load file).mapError ConfigFileFailure.chain = .ok config := hconfig
    show ((Config.load file).mapError ConfigFileFailure.chain).bind _ = _
    rw [hloaded]
    cases trace.text with
    | error e => rfl
    | ok source =>
      show (Except.mapError _ (Session.new? _)).bind _ = _
      rw [hnew]
      rfl

/-- What a replay finds, whatever its pace and however much it retains. -/
structure Findings where
  forest : List CallTree
  totalSteps : Nat
  functionCalls : Nat
  maxStackDepth : Nat
  /-- The number of snapshots captured. -/
  captures : Nat
  failure : Option SessionFailure

/-- A session that was played out with a configuration shows what was found, and retains as many of the
captured snapshots as it may. -/
structure Shows (c : Config) (f : Findings) (z : Session × List Event) : Prop where
  forest : z.1.forest = f.forest
  totalSteps : z.1.execution.counters.totalSteps = f.totalSteps
  functionCalls : z.1.execution.counters.functionCalls = f.functionCalls
  maxStackDepth : z.1.execution.counters.maxStackDepth = f.maxStackDepth
  captures : z.1.execution.history.captures = f.captures
  retained : z.1.execution.history.size = min c.history.maxHistory f.captures
  failure : z.2.findSome? eventFailure? = f.failure

/-- Nothing to be found. -/
def Findings.nothing : Findings := ⟨[], 0, 0, 0, 0, none⟩

/-- What is found in a trace that ends in some way. -/
def Findings.ofTrace (t : Trace) (limits : PlayerLimits) (ceiling : Nat) (ending : Ending) : Findings :=
  let stops := t.reachedStops limits ceiling
  let gathered := Gathered.ofSnapshots (t.copies stops)
  ⟨gathered.tracker.forest, stops.length + 1, gathered.functionCalls, gathered.maxStackDepth, stops.length,
    match ending with
    | .normal => none
    | .failed e => some (.ofRun e)⟩

/-- The first failure that observers are told of is among the results. -/
theorem findSome?_eventFailure? (events : List Event) :
    events.findSome? eventFailure? = (events.filter Event.isResult).findSome? eventFailure? := by
  induction events with
  | nil => rfl
  | cons e events ih =>
    cases e with
    | failed => rfl
    | completed | status | warning | historyLimit | snapshot | call => exact ih

/-- A session that was made and given a source, with nothing done yet. -/
structure Ready (c : Config) (source : String) (s : Session) : Prop where
  idle : Session.IsIdle c s
  execution : s.execution = { Execution.new c with source := source }
  fresh : s.playback.fresh = []
  sleeping : s.playback.sleeping = []
  awaitable : s.playback.awaitable = none
  log : s.playback.log = #[]

theorem ready_setSource {c : Config} {s : Session} (hnew : Session.new? c = .ok s) (source : String) :
    Ready c source (s.setSource source).1 := by
  have hidle := (Session.isIdle_of_new? hnew).1.setSource source
  obtain ⟨bounds, rfl⟩ := Session.eq_of_new? hnew
  exact ⟨hidle, rfl, rfl, rfl, rfl, rfl⟩

section Played

variable {c : Config} {source : String} {s : Session}

/-- With a blank source no run is started, and nothing is found. -/
theorem Ready.shows_of_blank (h : Ready c source s) (hblank : isBlankText source = true) :
    ∃ u, s.start = (u, .ok .emptySource) ∧
      Shows c .nothing ((u.await none).1, (u.await none).1.playback.log.toList) := by
  let warning : Event := .warning Execution.emptySourceWarning
  let u : Session := (s.withExecution s.execution).notify [warning]
  have hstart : s.execution.start = (s.execution, [warning], .ok .emptySource) := by
    rw [h.execution]
    unfold Execution.start
    simp [Execution.new, hblank, warning]
  have hstarted : s.start = (u, .ok .emptySource) := by
    unfold Session.start Session.load
    rw [hstart]
  have hawait : (u.await none).1 = u := by
    have hnone : u.playback.awaitable = none := h.awaitable
    unfold Session.await Playback.await
    rw [hnone]
  have hexecution : u.execution = { Execution.new c with source := source } := h.execution
  have hlog : u.playback.log.toList = [warning] := by
    show (s.playback.log ++ #[warning]).toList = _
    rw [h.log]
    rfl
  have hforest : u.forest = u.execution.tracker.forest := rfl
  refine ⟨u, hstarted, ?_⟩
  rw [hawait]
  exact {
    forest := by rw [hforest, hexecution]; rfl
    totalSteps := by rw [hexecution]; rfl
    functionCalls := by rw [hexecution]; rfl
    maxStackDepth := by rw [hexecution]; rfl
    captures := by rw [hexecution]; rfl
    retained := by rw [hexecution]; exact (Nat.min_zero _).symm
    failure := by rw [hlog]; rfl }

/-- A source that does not load starts no run either. -/
theorem Ready.start_of_error (h : Ready c source s) (hblank : isBlankText source = false) {e : RunFailure}
    (hread : Trace.read source = .error e) :
    (s.start).2 = .error (SessionFailure.load e.message) := by
  have hstart : s.execution.start.2.2 = .error (SessionFailure.load e.message) := by
    rw [h.execution]
    unfold Execution.start
    simp only [Execution.new, hblank, Bool.false_eq_true, if_false]
    unfold Player.load
    rw [hread]
  have hload : s.load.2 = .error (SessionFailure.load e.message) := hstart
  rw [Session.start_of_not_loaded (by rw [hload]; nofun)]
  exact hload

/-- A trace is played to its end. -/
theorem Ready.shows_of_read (hvalid : c.violation? = none) (h : Ready c source s) {t : Trace}
    (hread : Trace.read source = .ok t) {i : Nat} {ending : Ending}
    (hends : t.EndsAt c.player i ending) (hi : i < t.entries.size) :
    ∃ u, s.start = (u, .ok .started) ∧ Shows c (.ofTrace t c.player c.maxMicroSteps ending)
      ((u.await none).1, (u.await none).1.playback.log.toList) := by
  have hc := Session.maxMicroSteps_pos hvalid
  have hsource : Trace.read s.source = .ok t := by
    show Trace.read s.execution.source = _
    rw [h.execution]
    exact hread
  have hload := h.idle.idle.start_eq (show Trace.read s.execution.source = .ok t from hsource)
  have hstarted := h.idle.start_of_read hsource
  have hexecution : s.start.1.execution = s.execution.start.1 := s.execution_start
  obtain ⟨hsole, hawait⟩ := h.idle.soleLoop_start hsource h.fresh h.sleeping
  have hlength : s.start.1.execution.player.length = t.entries.size :=
    (h.idle.perform_of_read hc hsource (show Session.Operation.start.starts = true from rfl)).player_length
  -- the steps that are left to be taken
  obtain ⟨n, y, hn, hplays, hdone⟩ := Execution.exists_playsOut hc hends hi i
    (x := s.start.1.execution) (q := 0) (by rw [hexecution, hload])
    (by rw [hexecution, hload]; exact h.idle.idle.ceiling) (by rw [hexecution, hload]) (Nat.zero_add i)
  obtain ⟨-, hended, -, hreports⟩ := Session.await_playsOut hsole hawait hplays (by omega)
  have hpaced := h.idle.idle.paced_start (show Trace.read s.execution.source = .ok t from hsource)
  obtain ⟨hgathered, hcaptures, htotal⟩ := hplays.gathered_eq hc
    ⟨[], 0, (congrArg (Execution.Paced c t · [] 0) hexecution).mpr hpaced⟩ hdone
  have hfilled : y.Filled := hplays.keeps (fun _ => Execution.Filled.step) (by
    rw [hexecution, hload, h.execution]
    exact ⟨(Execution.filled_new c).valid, rfl, (Nat.min_zero _).symm⟩)
  have hconfigured : y.Configured c := hplays.keeps (fun _ => Execution.Configured.step) (by
    rw [hexecution, h.execution]
    exact Execution.Configured.start ⟨rfl, rfl, rfl, rfl⟩)
  -- the only result that is told is that of the last step
  have hbefore : s.playback.Reports s.start.1.playback [] := by
    have hquiet : s.playback.Reports s.load.1.playback [] := by
      refine Playback.reports_of_events [] ?_
      rw [s.log_load, hload]
    rw [hstarted]
    exact s.load.1.playback.tellsStates_play.reports.after hquiet
  obtain ⟨events, hlog, hresults⟩ := hreports.after hbefore
  rw [h.log] at hlog
  refine ⟨s.start.1, Prod.ext rfl (congrArg Prod.snd hstarted :), ?_⟩
  have hforest : (s.start.1.await none).1.forest = y.tracker.forest :=
    congrArg (fun x : Execution => x.tracker.forest) hended
  exact {
    forest := hforest.trans (congrArg Tracker.forest (congrArg Gathered.tracker hgathered))
    totalSteps := hended ▸ htotal
    functionCalls := hended ▸ congrArg Gathered.functionCalls hgathered
    maxStackDepth := hended ▸ congrArg Gathered.maxStackDepth hgathered
    captures := hended ▸ hcaptures
    retained := by
      have hcapacity := hconfigured.capacity_eq (Session.maxHistory_pos hvalid)
      show (s.start.1.await none).1.execution.history.size = min _ (t.reachedStops _ _).length
      rw [hended, hfilled.size, hcapacity, hcaptures]
    failure := by
      rw [hlog, findSome?_eventFailure?]
      show ((([] : List Event) ++ events).filter Event.isResult).findSome? eventFailure? = _
      rw [List.nil_append, hresults]
      cases ending <;> rfl }

end Played

section Two

variable {configFile configFile' : Option File} {trace : File} {options options' : ReplayOptions}
  {c c' : Config} {source : String}

theorem played?_of_unreadable {e : FileFailure} (htext : trace.text = .error e)
    (hc : settings configFile options = .ok c) (hvalid : c.violation? = none) :
    played? configFile trace options = .error (unreadableTrace trace.path e) := by
  obtain ⟨s, -, hprepare⟩ := exists_prepare trace hc hvalid
  unfold played?
  rw [hprepare, htext]
  rfl

theorem played?_of_error (htext : trace.text = .ok source) (hblank : isBlankText source = false)
    {e : RunFailure} (hread : Trace.read source = .error e) (hc : settings configFile options = .ok c)
    (hvalid : c.violation? = none) :
    played? configFile trace options = .error [(SessionFailure.load e.message).message] := by
  obtain ⟨s, hnew, hprepare⟩ := exists_prepare trace hc hvalid
  have hstart := (ready_setSource hnew source).start_of_error hblank hread
  unfold played?
  rw [hprepare, htext]
  simp only
  generalize (s.setSource source).1.start = started at hstart
  obtain ⟨u, outcome⟩ := started
  obtain rfl : outcome = _ := hstart
  rfl

theorem exists_played_of_start (htext : trace.text = .ok source)
    (hc : settings configFile options = .ok c) (hvalid : c.violation? = none) {f : Findings}
    {outcome : StartOutcome}
    (hstart : ∀ s, Ready c source s → ∃ u, s.start = (u, .ok outcome) ∧
      Shows c f ((u.await none).1, (u.await none).1.playback.log.toList)) :
    ∃ z, played? configFile trace options = .ok z ∧ Shows c f z := by
  obtain ⟨s, hnew, hprepare⟩ := exists_prepare trace hc hvalid
  obtain ⟨u, hstarted, hshows⟩ := hstart _ (ready_setSource hnew source)
  refine ⟨((u.await none).1.drain.1, (u.await none).1.playback.log.toList), ?_, ?_⟩
  · unfold played?
    rw [hprepare, htext]
    simp only [hstarted]
    rfl
  · exact ⟨hshows.forest, hshows.totalSteps, hshows.functionCalls, hshows.maxStackDepth, hshows.captures,
      hshows.retained, hshows.failure⟩

/-- What a replay of a text comes to, whatever its pace and however much it retains: either it is refused
for a reason that the text gives, or it finds what the text, the limits and the ceiling give. -/
theorem exists_findings (htext : trace.text = .ok source) (limits : PlayerLimits) (ceiling : Nat) :
    (∃ e, isBlankText source = false ∧ Trace.read source = .error e ∧
      ∀ {configFile options c}, settings configFile options = .ok c → c.violation? = none →
        played? configFile trace options = .error [(SessionFailure.load e.message).message]) ∨
    (∃ f, (isBlankText source = true ∨ ∃ t, Trace.read source = .ok t) ∧
      (f.failure.isSome = true ↔ Halts limits source) ∧
      ∀ {configFile options c}, settings configFile options = .ok c → c.violation? = none →
        c.player = limits → c.maxMicroSteps = ceiling →
        ∃ z, played? configFile trace options = .ok z ∧ Shows c f z) := by
  cases hblank : isBlankText source with
  | true =>
    refine Or.inr ⟨.nothing, Or.inl rfl, ⟨nofun, fun ⟨t, _, _, hread, _⟩ => ?_⟩, ?_⟩
    · exact nomatch hblank.symm.trans (Trace.not_blank_of_read hread)
    · rintro configFile options c hc hvalid - -
      exact exists_played_of_start htext hc hvalid fun s hs => hs.shows_of_blank hblank
  | false =>
    cases hread : Trace.read source with
    | error e =>
      exact Or.inl ⟨e, rfl, rfl, fun hc hvalid => played?_of_error htext hblank hread hc hvalid⟩
    | ok t =>
      obtain ⟨i, ending, hends, hi⟩ := Trace.exists_endsAt limits (Trace.size_pos_of_read hread)
      refine Or.inr ⟨.ofTrace t limits ceiling ending, Or.inr ⟨t, rfl⟩, ⟨fun hfailed => ?_, ?_⟩, ?_⟩
      · cases ending with
        | normal => cases hfailed
        | failed e => exact ⟨t, i, e, hread, hends⟩
      · rintro ⟨t', j, e, hread', hends'⟩
        obtain rfl := Except.ok.inj (hread.symm.trans hread')
        obtain ⟨-, rfl⟩ := hends.unique hends'
        rfl
      · rintro configFile options c hc hvalid rfl rfl
        exact exists_played_of_start htext hc hvalid fun s hs => hs.shows_of_read hvalid hread hends hi

theorem keys_tree (r : Report) : keys r.tree
    = ["call_tree", "metrics", "snapshots"].map some ++ r.failure.toList.map fun _ => some "error" := by
  obtain ⟨forest, counters, snapshots, failure, nanoseconds⟩ := r
  cases failure <;> rfl

/-- A document of a report tells of an error exactly if there was a failure. -/
theorem error_mem_keys_iff (z : Session × List Event) (nanoseconds : Nat) :
    some "error" ∈ keys (reported z nanoseconds).tree
      ↔ (z.2.findSome? eventFailure?).isSome = true := by
  have hfailure : (reported z nanoseconds).failure = z.2.findSome? eventFailure? := rfl
  rw [keys_tree, hfailure]
  cases z.2.findSome? eventFailure? <;> simp

/-- As a document the report is all that is printed. -/
theorem output_of_played {z : Session × List Event} (h : played? configFile trace options = .ok z)
    (hjson : options.json = true) :
    (replay configFile trace options).output = (reported z 0).tree.pretty ++ "\n" := by
  have hquiet : z.2.filterMap (eventLine? options) = [] := by
    refine List.filterMap_eq_nil_iff.mpr fun e _ => ?_
    have hprints : options.printsSteps = false := by
      unfold ReplayOptions.printsSteps
      rw [hjson, Bool.not_true, Bool.and_false]
    cases e with
    | snapshot s =>
      unfold eventLine?
      rw [hprints]
      rfl
    | status | completed | failed | warning | historyLimit | call => rfl
  rw [replay_of_played h, hquiet, if_pos hjson]
  exact String.empty_append

/-- A replay fails if what it found is a failure. -/
theorem failure_of_shows {z : Session × List Event} {f : Findings}
    (h : played? configFile trace options = .ok z) (hshows : Shows c f z) :
    (replay configFile trace options).failure
      = f.failure.elim [] fun e => ["Replay halted", e.message] := by
  have hfailure : (reported z 0).failure = f.failure := hshows.failure
  rw [replay_of_played h, hfailure]

/-- Two sessions that show the same findings report the same, the snapshots apart. -/
theorem Shows.report_eq {z z' : Session × List Event} {f : Findings} (h : Shows c f z)
    (h' : Shows c' f z') (ns ns' : Nat) :
    let r := reported z ns
    let r' := reported z' ns'
    r'.forest = r.forest ∧
    r'.counters.totalSteps = r.counters.totalSteps ∧
    r'.counters.functionCalls = r.counters.functionCalls ∧
    r'.counters.maxStackDepth = r.counters.maxStackDepth ∧
    r.snapshots = min c.history.maxHistory z.1.execution.history.captures ∧
    r'.snapshots = min c'.history.maxHistory z'.1.execution.history.captures := by
  intro r r'
  rw [h.captures, h'.captures]
  exact ⟨h'.forest.trans h.forest.symm, h'.totalSteps.trans h.totalSteps.symm,
    h'.functionCalls.trans h.functionCalls.symm, h'.maxStackDepth.trans h.maxStackDepth.symm,
    h.retained, h'.retained⟩

/-- A text that is blank or loads can only fail by the failure of its run. -/
theorem halts_iff_of_loads {limits : PlayerLimits}
    (hloads : isBlankText source = true ∨ ∃ t, Trace.read source = .ok t) :
    Halts limits source ↔ isBlankText source = false ∧
      ((∃ e, Trace.read source = .error e) ∨ Halts limits source) := by
  constructor
  · refine fun h => ⟨?_, Or.inr h⟩
    obtain ⟨t, _, _, hread, _⟩ := h
    exact Trace.not_blank_of_read hread
  · rintro ⟨hblank, ⟨e, he⟩ | h⟩
    · rcases hloads with hloads | ⟨t, ht⟩
      · exact nomatch hblank.symm.trans hloads
      · exact nomatch he.symm.trans ht
    · exact h

/-- Take a trace file and two replays of it, each with a configuration file or none and with any options, so
that the configurations are valid and agree on the limits of the player and on the ceiling on small steps.
They may differ in all else: the delays, the turbo mode, the capacity of the history, the checkpoints, and in
what is printed. Either both fail, with the same messages, or neither does. If one comes to a report so does
the other, and both report the same call tree, steps, calls and depth; and each as many snapshots as were
captured, which is the same in both, or as many as it may retain. A replay of a text fails exactly if the
text is not blank and either does not load or its run ends in a failure. It comes to a report exactly if the
text is blank or loads, and the document that is printed has a key for an error exactly if the run ends in
a failure. -/
theorem replays_agree (hc : settings configFile options = .ok c) (hvalid : c.violation? = none)
    (hc' : settings configFile' options' = .ok c') (hvalid' : c'.violation? = none)
    (hplayer : c'.player = c.player) (hceiling : c'.maxMicroSteps = c.maxMicroSteps) :
    let o := replay configFile trace options
    (replay configFile' trace options').failure = o.failure ∧
    (∀ z, played? configFile trace options = .ok z → ∃ z', played? configFile' trace options' = .ok z' ∧
      z'.1.execution.history.captures = z.1.execution.history.captures ∧ ∀ ns ns',
        let r := reported z ns
        let r' := reported z' ns'
        r'.forest = r.forest ∧
        r'.counters.totalSteps = r.counters.totalSteps ∧
        r'.counters.functionCalls = r.counters.functionCalls ∧
        r'.counters.maxStackDepth = r.counters.maxStackDepth ∧
        r.snapshots = min c.history.maxHistory z.1.execution.history.captures ∧
        r'.snapshots = min c'.history.maxHistory z'.1.execution.history.captures) ∧
    (∀ source, trace.text = .ok source →
      (o.failure ≠ [] ↔ isBlankText source = false ∧
        ((∃ e, Trace.read source = .error e) ∨ Halts c.player source)) ∧
      ((∃ z, played? configFile trace options = .ok z)
        ↔ isBlankText source = true ∨ ∃ t, Trace.read source = .ok t) ∧
      ∀ z, played? configFile trace options = .ok z →
        (options.json = true → o.output = (reported z 0).tree.pretty ++ "\n") ∧
        ∀ ns, some "error" ∈ keys (reported z ns).tree ↔ Halts c.player source) := by
  intro o
  cases htext : trace.text with
  | error e =>
    have hplayed := played?_of_unreadable htext hc hvalid
    have hplayed' := played?_of_unreadable htext hc' hvalid'
    have ho : o = _ := replay_of_not_played hplayed
    rw [ho, replay_of_not_played hplayed']
    refine ⟨rfl, fun z hz => ?_, nofun⟩
    rw [hplayed] at hz
    cases hz
  | ok source =>
    rcases exists_findings htext c.player c.maxMicroSteps with
      ⟨e, hblank, hread, hrefused⟩ | ⟨f, hloads, hhalts, hfound⟩
    · have hplayed := hrefused hc hvalid
      have ho : o = _ := replay_of_not_played hplayed
      rw [ho, replay_of_not_played (hrefused hc' hvalid')]
      have hnone : ∀ z, played? configFile trace options ≠ .ok z := by
        intro z hz
        rw [hplayed] at hz
        cases hz
      refine ⟨rfl, fun z hz => absurd hz (hnone z),
        fun source' hsource => ⟨?_, ⟨?_, ?_⟩, fun z hz => absurd hz (hnone z)⟩⟩
      · obtain rfl := Except.ok.inj hsource
        exact ⟨fun _ => ⟨hblank, Or.inl ⟨e, hread⟩⟩, fun _ => nofun⟩
      · rintro ⟨z, hz⟩
        exact absurd hz (hnone z)
      · obtain rfl := Except.ok.inj hsource
        rintro (hblank' | ⟨t, ht⟩)
        · exact nomatch hblank.symm.trans hblank'
        · exact nomatch hread.symm.trans ht
    · obtain ⟨z, hplayed, hshows⟩ := hfound hc hvalid rfl rfl
      obtain ⟨z', hplayed', hshows'⟩ := hfound hc' hvalid' hplayer hceiling
      have ho : o.failure = _ := failure_of_shows hplayed hshows
      refine ⟨?_, fun y hy => ?_,
        fun source' hsource => ⟨?_, ?_, fun y hy => ⟨output_of_played hy, ?_⟩⟩⟩
      · rw [ho, failure_of_shows hplayed' hshows']
      · obtain rfl := Except.ok.inj (hplayed.symm.trans hy)
        exact ⟨z', hplayed', hshows'.captures.trans hshows.captures.symm, hshows.report_eq hshows'⟩
      · obtain rfl := Except.ok.inj hsource
        have hfails : o.failure ≠ [] ↔ f.failure.isSome = true := by
          rw [ho]
          cases f.failure <;> simp
        rw [hfails, hhalts]
        exact halts_iff_of_loads hloads
      · obtain rfl := Except.ok.inj hsource
        exact iff_of_true ⟨z, hplayed⟩ hloads
      · obtain rfl := Except.ok.inj hsource
        obtain rfl := Except.ok.inj (hplayed.symm.trans hy)
        intro ns
        rw [error_mem_keys_iff, hshows.failure, hhalts]

end Two

/-- The entries of a trace that fails on its fourth line. -/
def brokenTrace : Trace :=
  ⟨#[.ofLine 1, .ofLine 2, .ofLine 3, ⟨some 4, some 0, some "", [], [], some "boom"⟩]⟩

/-- A file with it. -/
def brokenFile : File := ⟨"broken.json", .ok Trace.brokenText⟩

/-- A configuration file that leaves room for one snapshot. -/
def crampedFile : File := ⟨"cramped.toml", .ok "[history]\nmax_history = 1\n"⟩

/-- Two replays of a trace that fails, one as configured by default, the other in haste and with little
room. -/
theorem replays_of_brokenFile :
    let plain : ReplayOptions := ⟨none, false, none, false, false⟩
    let hasty : ReplayOptions := ⟨some 20, true, none, true, true⟩
    let c := ((Config.standard.withMaxHistory 1).withSpeed 20).withTurbo true
    settings none plain = .ok .standard ∧ settings (some crampedFile) hasty = .ok c ∧
    Config.standard.violation? = none ∧ c.violation? = none ∧
    (replay none brokenFile plain).failure ≠ [] ∧
    (replay (some crampedFile) brokenFile hasty).failure = (replay none brokenFile plain).failure := by
  intro plain hasty c
  have hplain : settings none plain = .ok .standard := by rfl
  have htoml : Config.ofToml? "[history]\nmax_history = 1\n"
      = some (Config.standard.withMaxHistory 1) := by decide +kernel
  have hload : Config.load crampedFile = .ok (Config.standard.withMaxHistory 1) := by
    unfold Config.load Config.read crampedFile
    simp only [htoml]
    rfl
  have hhasty : settings (some crampedFile) hasty = .ok c := by
    unfold settings
    rw [Option.elim_some, hload]
    rfl
  have hvalid : Config.standard.violation? = none := by rfl
  have hvalid' : c.violation? = none := by rfl
  have hread : Trace.read Trace.brokenText = .ok brokenTrace := Trace.read_of_decode rfl rfl rfl
  have hends : brokenTrace.EndsAt Config.standard.player 2 (.failed (.runtime "boom")) :=
    ⟨by decide, by decide⟩
  have hagree := @replays_agree _ _ brokenFile _ _ _ _ hplain hvalid hhasty hvalid' rfl rfl
  have hfails := (hagree.2.2 Trace.brokenText rfl).1.mpr
    ⟨Trace.not_blank_of_read hread, Or.inr ⟨brokenTrace, 2, _, hread, hends⟩⟩
  exact ⟨hplain, hhasty, hvalid, hvalid', hfails, hagree.1⟩

end CommandLine

end Retrace
