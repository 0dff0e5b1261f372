import Retrace.Proofs.Playback.Lockstep
import Retrace.Proofs.Playback.Tempo
import Retrace.Proofs.Session.Captures
import Retrace.Proofs.Session.Configured
/-!
# A reset gives back a new session

Whatever happened to a session before, after a reset it answers every further sequence of calls as a new
session with the same configuration, source, speed and turbo mode does (`reset_gives_new`). The answers
are those of the calls, the events among them, and in between both hold the same execution: the
snapshots retained, the calls tracked and the counters. The status differs at most in that it tells of
the reset where that of the new session tells of nothing.

What the two do not share are the numbers of their runs, their clocks, and the loops that the used one
may have left behind (`Playback.Renews`), and none of these can be seen by a caller. A wait without a
limit may never end, and then it does not end in either.
-/

namespace Retrace

namespace Session

/-- What a user may call. -/
inductive Call where
  | setSource (text : String)
  | start
  | toggle
  | forward
  | back
  | reset
  | pause
  | setSpeed (ms : Nat)
  | setTurbo (on : Bool)
  /-- The events told since the last time are taken notice of. -/
  | drain
  /-- The user waits for some time. -/
  | elapse (ms : Nat)
  /-- The user waits for playback to end, at most for some time if a limit is given. -/
  | await (limitMs : Option Nat)

/-- What a call comes back with. -/
inductive Answer where
  | nothing
  | unit (r : Except SessionFailure Unit)
  | started (r : Except SessionFailure StartOutcome)
  | forward (r : Except SessionFailure (Option Snapshot))
  | back (r : Option Snapshot)
  | speed (ms : Nat)
  | events (told : Array Event)
  | ended (ended : Bool)
  /-- The call does not come back. -/
  | never

def call (s : Session) : Call → Session × Answer
  | .setSource text => ((s.setSource text).1, .unit (s.setSource text).2)
  | .start => (s.start.1, .started s.start.2)
  | .toggle => (s.toggle.1, .unit s.toggle.2)
  | .forward => (s.forward.1, .forward s.forward.2)
  | .back => (s.back.1, .back s.back.2)
  | .reset => (s.reset, .nothing)
  | .pause => (s.pause, .nothing)
  | .setSpeed ms => ((s.setSpeed ms).1, .speed (s.setSpeed ms).2)
  | .setTurbo on => (s.setTurbo on, .nothing)
  | .drain => (s.drain.1, .events s.drain.2)
  | .elapse ms => (s.elapse ms, .nothing)
  | .await limitMs =>
    ((s.await limitMs).1,
      if limitMs.isNone && !(s.await limitMs).2 then .never else .ended (s.await limitMs).2)

/-- Calls one after the other: the answers, and the session after them, unless one does not come
back. -/
def calls (s : Session) : List Call → List Answer × Option Session
  | [] => ([], some s)
  | c :: later =>
    match s.call c with
    | (_, .never) => ([.never], none)
    | (s', answer) => (answer :: (s'.calls later).1, (s'.calls later).2)

/-- Every call that comes back is a run of operations. -/
theorem exists_run_call (s : Session) (c : Call) : ∃ ops : List Operation, (s.call c).1 = s.run ops := by
  cases c with
  | setSource text => exact ⟨[.setSource text], rfl⟩
  | start => exact ⟨[.start], rfl⟩
  | toggle => exact ⟨[.toggle], rfl⟩
  | forward => exact ⟨[.forward], rfl⟩
  | back => exact ⟨[.back], rfl⟩
  | reset => exact ⟨[.reset], rfl⟩
  | pause => exact ⟨[.pause], rfl⟩
  | setSpeed ms => exact ⟨[.setSpeed ms], rfl⟩
  | setTurbo on => exact ⟨[.setTurbo on], rfl⟩
  | drain => exact ⟨[.drain], rfl⟩
  | elapse ms =>
    obtain ⟨ops, -, hrun⟩ := s.exists_run_elapse ms
    exact ⟨ops, hrun⟩
  | await limitMs =>
    obtain ⟨ops, -, hrun⟩ := s.exists_run_await limitMs
    exact ⟨ops, hrun⟩

/-! ## A session that starts over -/

/-- The first session is like the second, which is a new one, but starts over. -/
structure Renews (s s' : Session) : Prop where
  playback : ∃ base late old slept, Playback.Renews base late old slept s.playback s'.playback
  orderly : s'.playback.Orderly

section Renews

variable {s s' : Session}

theorem Renews.execution_eq (h : s.Renews s') : s.execution = s'.execution := by
  obtain ⟨base, late, old, slept, hp⟩ := h.playback
  exact hp.work

theorem Renews.withExecution (h : s.Renews s') (x : Execution) :
    (s.withExecution x).Renews (s'.withExecution x) := by
  obtain ⟨base, late, old, slept, hp⟩ := h.playback
  exact ⟨⟨base, late, old, slept, hp.setWork x⟩, h.orderly.of_same (s'.sameLoops_withExecution x)⟩

theorem Renews.notify (h : s.Renews s') (events : List Event) :
    (s.notify events).Renews (s'.notify events) := by
  obtain ⟨base, late, old, slept, hp⟩ := h.playback
  exact ⟨⟨base, late, old, slept, hp.appendLog _⟩,
    h.orderly.of_same (Playback.sameLoops_of_eq rfl rfl)⟩

theorem Renews.pause (h : s.Renews s') : s.pause.Renews s'.pause := by
  obtain ⟨base, late, old, slept, hp⟩ := h.playback
  exact ⟨⟨base, late, old, slept, hp.pause⟩, h.orderly.of_same s'.playback.sameLoops_pause⟩

theorem Renews.setSource (h : s.Renews s') (text : String) :
    (s.setSource text).1.Renews (s'.setSource text).1
      ∧ (s.setSource text).2 = (s'.setSource text).2 := by
  unfold Session.setSource
  rw [h.execution_eq]
  split
  · exact ⟨h.withExecution _, rfl⟩
  · exact ⟨h, rfl⟩

theorem Renews.load (h : s.Renews s') : s.load.1.Renews s'.load.1 ∧ s.load.2 = s'.load.2 := by
  unfold Session.load
  rw [h.execution_eq]
  exact ⟨(h.withExecution _).notify _, rfl⟩

theorem Renews.start (h : s.Renews s') : s.start.1.Renews s'.start.1 ∧ s.start.2 = s'.start.2 := by
  obtain ⟨hload, houtcome⟩ := h.load
  unfold Session.start
  generalize s.load = loaded at hload houtcome ⊢
  generalize s'.load = loaded' at hload houtcome ⊢
  obtain ⟨t, outcome⟩ := loaded
  obtain ⟨t', outcome'⟩ := loaded'
  obtain rfl : outcome = outcome' := houtcome
  obtain ⟨base, late, old, slept, hp⟩ := hload.playback
  have hplayed : Renews ⟨t.playback.play.1⟩ ⟨t'.playback.play.1⟩ :=
    ⟨⟨base, late, old, slept, hp.play⟩, hload.orderly.play⟩
  match outcome with
  | .ok .started => exact ⟨hplayed, rfl⟩
  | .ok .emptySource | .ok .alreadyStarted | .error e => exact ⟨hload, rfl⟩

theorem Renews.toggle (h : s.Renews s') :
    s.toggle.1.Renews s'.toggle.1 ∧ s.toggle.2 = s'.toggle.2 := by
  obtain ⟨base, late, old, slept, hp⟩ := h.playback
  obtain ⟨hstart, houtcome⟩ := h.start
  unfold Session.toggle
  rw [h.execution_eq]
  split
  · exact ⟨⟨⟨base, late, old, slept, hp.toggle⟩, h.orderly.toggle⟩, rfl⟩
  · generalize s.start = started at hstart houtcome ⊢
    generalize s'.start = started' at hstart houtcome ⊢
    obtain ⟨t, outcome⟩ := started
    obtain ⟨t', outcome'⟩ := started'
    obtain rfl : outcome = outcome' := houtcome
    cases outcome <;> exact ⟨hstart, rfl⟩

theorem Renews.stepProgram (h : s.Renews s') :
    s.stepProgram.1.Renews s'.stepProgram.1 ∧ s.stepProgram.2 = s'.stepProgram.2 := by
  obtain ⟨base, late, old, slept, hp⟩ := h.playback
  obtain ⟨hstep, hanswer⟩ := hp.stepForward Execution.instant_workload h.orderly (s.patience 0)
    (s'.patience 0)
  exact ⟨⟨⟨base, late, old, slept, hstep⟩,
    h.orderly.of_same (sameLoops_stepProgram h.orderly.toTidy)⟩, congrArg (·.getD (.ok true)) hanswer⟩

theorem Renews.current?_eq (h : s.Renews s') : s.current? = s'.current? :=
  congrArg (fun x : Execution => x.history.current?) h.execution_eq

theorem Renews.forward (h : s.Renews s') :
    s.forward.1.Renews s'.forward.1 ∧ s.forward.2 = s'.forward.2 := by
  unfold Session.forward
  rw [h.execution_eq]
  split
  · split
    · exact ⟨(h.withExecution _).notify _, rfl⟩
    · -- a step of the program
      obtain ⟨hstep, houtcome⟩ := h.stepProgram
      generalize s.stepProgram = stepped at hstep houtcome ⊢
      generalize s'.stepProgram = stepped' at hstep houtcome ⊢
      obtain ⟨t, outcome⟩ := stepped
      obtain ⟨t', outcome'⟩ := stepped'
      obtain rfl : outcome = outcome' := houtcome
      cases outcome with
      | error e => exact ⟨hstep, rfl⟩
      | ok more =>
        refine ⟨hstep, ?_⟩
        have hexecution : t.execution = t'.execution := hstep.execution_eq
        simp only
        rw [hexecution, hstep.current?_eq]
  · -- the first step of a run
    obtain ⟨hload, houtcome⟩ := h.load
    generalize s.load = loaded at hload houtcome ⊢
    generalize s'.load = loaded' at hload houtcome ⊢
    obtain ⟨t, outcome⟩ := loaded
    obtain ⟨t', outcome'⟩ := loaded'
    obtain rfl : outcome = outcome' := houtcome
    match outcome with
    | .ok .emptySource | .ok .alreadyStarted | .error e => exact ⟨hload, rfl⟩
    | .ok .started =>
      obtain ⟨hstep, houtcome⟩ := hload.pause.stepProgram
      simp only
      unfold Session.pause at hstep houtcome
      generalize Session.stepProgram ⟨t.playback.pause⟩ = stepped at hstep houtcome ⊢
      generalize Session.stepProgram ⟨t'.playback.pause⟩ = stepped' at hstep houtcome ⊢
      obtain ⟨u, outcome⟩ := stepped
      obtain ⟨u', outcome'⟩ := stepped'
      obtain rfl : outcome = outcome' := houtcome
      cases outcome with
      | error e => exact ⟨hstep, rfl⟩
      | ok more =>
        refine ⟨hstep, ?_⟩
        simp only
        rw [hstep.current?_eq]

theorem Renews.back (h : s.Renews s') : s.back.1.Renews s'.back.1 ∧ s.back.2 = s'.back.2 := by
  unfold Session.back
  rw [h.execution_eq]
  split
  · exact ⟨h, rfl⟩
  · rename_i history snapshot _
    have hmoved := (h.withExecution { s'.execution with history := history }).notify
      [.snapshot snapshot]
    obtain ⟨base, late, old, slept, hp⟩ := hmoved.playback
    exact ⟨⟨⟨base, late, old, slept, hp.resumeFromCompleted⟩,
      hmoved.orderly.of_same (Playback.sameLoops_resumeFromCompleted _)⟩, rfl⟩

theorem Renews.reset (h : s.Renews s') : s.reset.Renews s'.reset := by
  obtain ⟨base, late, old, slept, hp⟩ := h.playback
  have hreset : s.playback.reset.work.reset = s'.playback.reset.work.reset :=
    congrArg Execution.reset hp.reset.work
  have hplayback := hp.reset.setWork s'.playback.reset.work.reset
  unfold Session.reset
  simp only
  rw [hreset]
  exact ⟨⟨base, late, old, slept, hplayback⟩,
    h.orderly.of_same (Playback.sameLoops_of_eq rfl rfl)⟩

theorem Renews.setSpeed (h : s.Renews s') (ms : Nat) :
    (s.setSpeed ms).1.Renews (s'.setSpeed ms).1 ∧ (s.setSpeed ms).2 = (s'.setSpeed ms).2 := by
  obtain ⟨base, late, old, slept, hp⟩ := h.playback
  obtain ⟨hset, hspeed⟩ := hp.setSpeed ms
  exact ⟨⟨⟨base, late, old, slept, hset⟩, { h.orderly with }⟩, hspeed⟩

theorem Renews.setTurbo (h : s.Renews s') (on : Bool) : (s.setTurbo on).Renews (s'.setTurbo on) := by
  obtain ⟨base, late, old, slept, hp⟩ := h.playback
  exact ⟨⟨base, late, old, slept, hp.setTurbo on⟩, { h.orderly with }⟩

theorem Renews.drain (h : s.Renews s') : s.drain.1.Renews s'.drain.1 ∧ s.drain.2 = s'.drain.2 := by
  obtain ⟨base, late, old, slept, hp⟩ := h.playback
  obtain ⟨hdrained, hevents⟩ := hp.drain
  exact ⟨⟨⟨base, late, old, slept, hdrained⟩, { h.orderly with }⟩, hevents⟩

/-! ## Time and waiting -/

/-- A session has patience for all that its loops do within some time. -/
theorem burden_lt_patience (s : Session) (ms : Nat) : s.playback.burden 1 + 2 * ms < s.patience ms := by
  have hle : s.playback.burden 1 ≤ 2 * (s.playback.fresh.length + s.playback.sleeping.length) :=
    s.playback.burden_le (Nat.le_refl _) (by omega)
  unfold patience
  omega

/-- It has patience for all that they do until there is nothing left to do. -/
theorem burden_lt_patience_zero (s : Session) :
    s.playback.burden 3 + 2 * s.execution.player.left < s.patience 0 := by
  have hle : s.playback.burden 3 ≤ 3 * (s.playback.fresh.length + s.playback.sleeping.length) :=
    s.playback.burden_le (by omega) (Nat.le_refl _)
  have hleft : s.execution.player.left ≤ s.execution.player.length := Nat.sub_le _ _
  unfold patience
  omega

/-- Loops left behind make for more patience. -/
theorem patience_of_renews {base late : Nat} {old : List Nat} {slept : List Sleeper}
    (hp : Playback.Renews base late old slept s.playback s'.playback) (ms : Nat) :
    s'.patience ms + (old.length + slept.length) ≤ s.patience ms := by
  have hexecution : s.execution = s'.execution := hp.work
  unfold patience
  rw [hexecution, hp.fresh, hp.sleeping]
  simp only [List.length_append, List.length_map]
  omega

theorem burden_lt_patience_of_renews {base late : Nat} {old : List Nat} {slept : List Sleeper}
    (hp : Playback.Renews base late old slept s.playback s'.playback) (ms : Nat) :
    s'.playback.burden 1 + 2 * ms + (old.length + slept.length) < s.patience ms := by
  have hfuel := s'.burden_lt_patience ms
  have hmore := patience_of_renews hp ms
  omega

theorem Renews.elapse (h : s.Renews s') (ms : Nat) : (s.elapse ms).Renews (s'.elapse ms) := by
  obtain ⟨base, late, old, slept, hp⟩ := h.playback
  have hfuel := s'.burden_lt_patience ms
  have hmore := burden_lt_patience_of_renews hp ms
  obtain ⟨old', slept', helapsed, horderly⟩ :=
    hp.elapse Execution.instant_workload h.orderly hfuel hmore
  exact ⟨⟨base, late, old', slept', helapsed⟩, horderly⟩

theorem Renews.await_some (h : s.Renews s') (ms : Nat) :
    (s.await (some ms)).1.Renews (s'.await (some ms)).1
      ∧ (s.await (some ms)).2 = (s'.await (some ms)).2 := by
  obtain ⟨base, late, old, slept, hp⟩ := h.playback
  have hfuel := s'.burden_lt_patience ms
  have hmore := burden_lt_patience_of_renews hp ms
  have hrest : ∀ run, s'.playback.awaitable = some run → ∃ q', Playback.Settles Execution.workload
      (fun q => !q.hasLoop run) ((some ms).map (s'.playback.clock + ·))
      (s'.playback.burden 1 + 2 * ms) { s'.playback with awaitable := none } q' := by
    intro run _
    have horderly : ({ s'.playback with awaitable := none } : Playback Execution).Orderly :=
      { h.orderly with awaited := nofun }
    obtain ⟨q', hq⟩ := horderly.exists_settles_by Execution.instant_workload
      (fun q => !q.hasLoop run) (s'.playback.clock + ms)
    rw [Nat.add_sub_cancel_left] at hq
    exact ⟨q', hq⟩
  obtain ⟨hended, old', slept', hawaited, horderly⟩ :=
    hp.await Execution.instant_workload h.orderly hfuel hmore hrest
  exact ⟨⟨⟨base, late, old', slept', hawaited⟩, horderly⟩, hended⟩

/-- A wait without a limit ends in both, or in neither because a loop is held up. -/
theorem Renews.await_none (h : s.Renews s') (hc : 0 < s'.execution.maxMicroSteps) :
    (s.await none).2 = (s'.await none).2
      ∧ ((s'.await none).2 = true → (s.await none).1.Renews (s'.await none).1) := by
  obtain ⟨base, late, old, slept, hp⟩ := h.playback
  have hfuel := s'.burden_lt_patience_zero
  have hmore : s'.playback.burden 3 + 2 * s'.execution.player.left + (old.length + slept.length)
      < s.patience 0 := by
    have hmore := patience_of_renews hp 0
    omega
  by_cases hheld : ∃ run, s'.playback.awaitable = some run ∧ s'.playback.HeldUp run
  · obtain ⟨run, hrun, hheld⟩ := hheld
    obtain ⟨-, hpos⟩ := h.orderly.awaited run hrun
    have hnot : (s'.await none).2 = false := hheld.await hrun _
    have hnot' : (s.await none).2 = false := by
      rcases hp.awaitable with ⟨run', hrun', hprun⟩ | ⟨hnone, -⟩
      · obtain rfl : run = run' := Option.some.inj (hrun.symm.trans hrun')
        exact (hp.heldUp_of hpos hheld).await hprun _
      · exact nomatch hnone.symm.trans hrun
    refine ⟨hnot'.trans hnot.symm, fun hended => ?_⟩
    exact absurd (hnot.symm.trans hended) Bool.false_ne_true
  · have hrest : ∀ run, s'.playback.awaitable = some run → ∃ q', Playback.Settles Execution.workload
        (fun q => !q.hasLoop run) ((none : Option Nat).map (s'.playback.clock + ·))
        (s'.playback.burden 3 + 2 * s'.execution.player.left)
        { s'.playback with awaitable := none } q' := by
      intro run hrun
      have hunheld : s'.playback.Unheld := by
        rcases h.orderly.unheld_or_heldUp hrun with hunheld | hheld'
        · exact hunheld
        · exact absurd ⟨run, hrun, hheld'⟩ hheld
      have horderly : ({ s'.playback with awaitable := none } : Playback Execution).Orderly :=
        { h.orderly with awaited := nofun }
      exact horderly.exists_settles Execution.instant_workload Execution.wearing_workload hunheld hc _
    obtain ⟨hended, old', slept', hawaited, horderly⟩ :=
      hp.await Execution.instant_workload h.orderly hfuel hmore hrest
    exact ⟨hended, fun _ => ⟨⟨base, late, old', slept', hawaited⟩, horderly⟩⟩

/-! ## Calls -/

/-- A call is answered alike in both, and if it comes back both go on alike. -/
theorem Renews.call (h : s.Renews s') (hc : 0 < s'.execution.maxMicroSteps) (c : Call) :
    (s.call c).2 = (s'.call c).2
      ∧ ((s'.call c).2 ≠ .never → (s.call c).1.Renews (s'.call c).1) := by
  cases c with
  | setSource text => exact ⟨congrArg Answer.unit (h.setSource text).2, fun _ => (h.setSource text).1⟩
  | start => exact ⟨congrArg Answer.started h.start.2, fun _ => h.start.1⟩
  | toggle => exact ⟨congrArg Answer.unit h.toggle.2, fun _ => h.toggle.1⟩
  | forward => exact ⟨congrArg Answer.forward h.forward.2, fun _ => h.forward.1⟩
  | back => exact ⟨congrArg Answer.back h.back.2, fun _ => h.back.1⟩
  | reset => exact ⟨rfl, fun _ => h.reset⟩
  | pause => exact ⟨rfl, fun _ => h.pause⟩
  | setSpeed ms => exact ⟨congrArg Answer.speed (h.setSpeed ms).2, fun _ => (h.setSpeed ms).1⟩
  | setTurbo on => exact ⟨rfl, fun _ => h.setTurbo on⟩
  | drain => exact ⟨congrArg Answer.events h.drain.2, fun _ => h.drain.1⟩
  | elapse ms => exact ⟨rfl, fun _ => h.elapse ms⟩
  | await limitMs =>
    cases limitMs with
    | some ms =>
      obtain ⟨hawaited, hended⟩ := h.await_some ms
      exact ⟨congrArg Answer.ended hended, fun _ => hawaited⟩
    | none =>
      obtain ⟨hended, hawaited⟩ := h.await_none hc
      have hanswer : (s.call (.await none)).2 = (s'.call (.await none)).2 := by
        unfold Session.call
        simp only
        rw [hended]
      refine ⟨hanswer, fun hback => hawaited ?_⟩
      by_contra hnot
      rw [Bool.not_eq_true] at hnot
      refine hback ?_
      unfold Session.call
      simp only
      rw [hnot]
      rfl

end Renews

/-- What can be seen of two sessions is the same, except that the first may tell of a reset where the
second tells of nothing. -/
structure Alike (s s' : Session) : Prop where
  execution : s.execution = s'.execution
  status : s.playback.status = s'.playback.status ∨
    (s'.playback.status.state = .idle ∧
      s.playback.status = { s'.playback.status with state := .reset })
  delay : s.playback.delay = s'.playback.delay
  events : s.playback.log = s'.playback.log

theorem Renews.alike {s s' : Session} (h : s.Renews s') : s.Alike s' := by
  obtain ⟨base, late, old, slept, hp⟩ := h.playback
  have hstate : ∀ x, s.playback.status.state = x →
      s.playback.status = { s'.playback.status with state := x } := by
    intro x hx
    rw [← hp.status.enter x, ← hx]
  refine ⟨hp.work, ?_, ?_, hp.log⟩
  · rcases hp.status.state with hsame | ⟨hidle, hreset⟩
    · exact Or.inl (hstate _ hsame)
    · exact Or.inr ⟨hidle, hstate _ hreset⟩
  · have hspeed : s.playback.status.speedMs = s'.playback.status.speedMs :=
      hp.status.congr _ fun _ => rfl
    unfold Playback.delay
    rw [hp.bounds, hspeed, hp.turbo]

/-- All further calls are answered alike. The induction is on the calls. -/
theorem Renews.calls {c : Config} {bounds : DelayBounds} (hc : 0 < c.maxMicroSteps) :
    ∀ (later : List Call) {s s' : Session}, s.Renews s' → Configured c bounds s' →
      (s.calls later).1 = (s'.calls later).1 ∧
      Option.Rel Alike (s.calls later).2 (s'.calls later).2
  | [], s, s', h, _ => ⟨rfl, .some h.alike⟩
  | call :: later, s, s', h, hs' => by
    have hceiling : 0 < s'.execution.maxMicroSteps := by
      rw [hs'.execution.ceiling]
      exact hc
    obtain ⟨hanswer, hback⟩ := h.call hceiling call
    obtain ⟨ops, hrun⟩ := s'.exists_run_call call
    have hkept : Configured c bounds (s'.call call).1 := by
      rw [hrun]
      exact hs'.run ops
    unfold Session.calls
    generalize s.call call = result at hanswer hback ⊢
    generalize s'.call call = result' at hanswer hback hkept ⊢
    obtain ⟨t, answer⟩ := result
    obtain ⟨t', answer'⟩ := result'
    obtain rfl : answer = answer' := hanswer
    cases answer with
    | never => exact ⟨rfl, .none⟩
    | _ =>
      obtain ⟨hanswers, halike⟩ := Renews.calls hc later (hback nofun) hkept
      exact ⟨congrArg (_ :: ·) hanswers, halike⟩

/-! ## The reset -/

/-- A session is made only of a valid configuration. -/
theorem exists_bounds_of_new? {c : Config} {s : Session} (h : new? c = .ok s) :
    ∃ bounds : DelayBounds, s = ⟨.new c.playback bounds (.new c)⟩ ∧ 0 < bounds.least
      ∧ 0 < c.playback.pausePollMs ∧ 0 < c.maxMicroSteps := by
  obtain ⟨bounds, hbounds, hs⟩ := bounds?_of_new? h
  obtain ⟨-, -, ⟨hdelay, -, hpoll⟩, hmicro⟩ := Config.valid_of_violation (violation_of_new? h)
  refine ⟨bounds, hs, ?_, hpoll, hmicro⟩
  rw [(PlaybackConfig.ends_of_bounds? hbounds).1]
  exact hdelay

/-- The session that a used one is like after its reset: a new one with its source, speed and turbo
mode. -/
def renewed (s used : Session) : Session :=
  (((s.setSource used.source).1.setSpeed used.playback.status.speedMs).1).setTurbo used.playback.turbo

/-- No loop is started by setting the source, the speed and the turbo mode. -/
theorem orderly_renewed {s : Session} (h : s.playback.Orderly) (used : Session) :
    (renewed s used).playback.Orderly := by
  have hsource := h.of_same (s.sameLoops_setSource used.source)
  have hspeed : ((s.setSource used.source).1.setSpeed
      used.playback.status.speedMs).1.playback.Orderly := { hsource with }
  exact { hspeed with }

theorem configured_renewed {c : Config} {bounds : DelayBounds} {s : Session}
    (h : Configured c bounds s) (used : Session) : Configured c bounds (renewed s used) :=
  h.run [.setSource used.source, .setSpeed used.playback.status.speedMs,
    .setTurbo used.playback.turbo]

/-- A second reset changes nothing that the first has not changed, apart from telling of it. -/
theorem Configured.reset_reset {c : Config} {bounds : DelayBounds} {s : Session}
    (h : Configured c bounds s) : s.reset.reset.drain.1 = s.reset.drain.1 := by
  have hexecution : s.execution.reset.reset = s.execution.reset :=
    h.execution.reset.reset_eq.trans h.execution.reset_eq.symm
  exact congrArg (fun x : Execution => s.reset.drain.1.withExecution x) hexecution

/-- A session that was reset, with the events of that taken notice of, starts over as a new one. -/
theorem renews_reset {c : Config} {bounds : DelayBounds} (hleast : 0 < bounds.least)
    (hpoll : 0 < c.playback.pausePollMs) {used : Session} (h : Configured c bounds used) :
    used.reset.drain.1.Renews (renewed ⟨.new c.playback bounds (.new c)⟩ used) := by
  have hspeed : bounds.clamp used.playback.status.speedMs = used.playback.status.speedMs := h.speed_eq
  have hnew : (Playback.new c.playback bounds (Execution.new c)).Orderly :=
    ⟨⟨rfl, rfl, nofun⟩, nofun, Nat.zero_le _, nofun, hpoll, hleast⟩
  refine ⟨⟨used.playback.run, used.playback.clock, used.playback.fresh, used.playback.sleeping, ?_⟩,
    orderly_renewed hnew used⟩
  refine
    { bounds := h.bounds_eq
      pausePollMs := h.poll_eq
      status := ⟨?_, Or.inr ⟨rfl, rfl⟩⟩
      turbo := rfl
      run := (Nat.zero_add _).symm
      unplayed := fun _ => rfl
      cancelled := fun hplayed => absurd rfl hplayed
      fresh := (List.append_nil _).symm
      sleeping := (List.append_nil _).symm
      old_le := fun run hrun => h.tidy.started run (List.mem_append_left _ hrun)
      slept_le := fun s hs =>
        h.tidy.started s.run (List.mem_append_right _ (List.mem_map_of_mem hs))
      free := h.tidy.free
      answered := h.tidy.answered
      awaitable := Or.inr ⟨rfl, Or.inr rfl⟩
      clock := (Nat.zero_add _).symm
      work := h.execution.reset_eq
      log := rfl }
  show Status.mk .idle false false false 0 0 used.playback.status.speedMs
    = Status.mk .idle false false false 0 0 (bounds.clamp used.playback.status.speedMs)
  rw [hspeed]

/-- Whatever happened to a session, a reset gives back one that no caller can tell from a new session
with the same configuration, source, speed and turbo mode: every further sequence of calls is answered
alike, and in between both show the same, except that the status may tell of the reset instead of
nothing. A second reset changes nothing more, apart from telling of it. -/
theorem reset_gives_new {c : Config} {s : Session} (hnew : new? c = .ok s)
    (before : List Operation) :
    let used := s.run before
    (∀ later : List Call,
      (used.reset.drain.1.calls later).1 = ((renewed s used).calls later).1 ∧
      Option.Rel Alike (used.reset.drain.1.calls later).2 ((renewed s used).calls later).2) ∧
    used.reset.reset.drain.1 = used.reset.drain.1 := by
  obtain ⟨bounds, rfl, hleast, hpoll, hc⟩ := exists_bounds_of_new? hnew
  intro used
  have hused : Configured c bounds used := (configured_new c bounds).run before
  have hrenewed := configured_renewed (configured_new c bounds) used
  exact ⟨fun later => Renews.calls hc later (renews_reset hleast hpoll hused) hrenewed,
    hused.reset_reset⟩

/-- A session is reset while its loop is asleep and two lines of the trace were played. Then it plays the
whole trace as a new session does, although that loop is still there. -/
theorem reset_while_playing :
    let used := Session.standard.run
      [.setSource Trace.threeLinesText, .setSpeed 50, .start, .move (.begin 1), .forward]
    let later : List Call := [.start, .await (some 5000), .back, .drain]
    new? .standard = .ok .standard
    ∧ used.execution.history.captures = 2 ∧ used.reset.playback.sleeping.length = 1
    ∧ (used.reset.drain.1.calls later).1.length = 4
    ∧ (used.reset.drain.1.calls later).1 = ((renewed .standard used).calls later).1 := by
  intro used later
  have hnew : new? .standard = .ok .standard := by rfl
  have hcaptures : used.execution.history.captures = 2 := by decide +kernel
  have hasleep : used.reset.playback.sleeping.length = 1 := by decide +kernel
  have hanswers : (used.reset.drain.1.calls later).1.length = 4 := by decide +kernel
  obtain ⟨hcalls, -⟩ := reset_gives_new hnew
    [.setSource Trace.threeLinesText, .setSpeed 50, .start, .move (.begin 1), .forward]
  exact ⟨hnew, hcaptures, hasleep, hanswers, (hcalls later).1⟩

end Session

end Retrace
