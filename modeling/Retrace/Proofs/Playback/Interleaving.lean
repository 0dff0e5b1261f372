import Retrace.Proofs.Playback.Runs
import Retrace.Proofs.Playback.Instant
/-!
# No stale step is taken

Controls and the loops of all runs so far may follow each other in any order. Here an order is a list of
actions, and nothing is asked of it: a loop may move where it has no move to make, anyone may get in
line at the gate at any time, and a step may last as long as it likes (`Action`).

An action calls the step function if what it comes to depends on that function (`Begins`). Looking
through the actions, a call is made by whoever holds the gate and finds no other call under way, and a
loop makes one only if its run is live and running (`Call`, `act_cases`). From this the rest follows
with the life of runs: at most one call is ever under way, and a run that was stopped, cancelled, held
up or replaced has taken its last step (`no_stale_step`).
-/

namespace Retrace

namespace Gate

/-- Whose step is under way. -/
def underWay? : Gate → Option Stepper
  | stepping holder _ _ _ => some holder
  | _ => none

/-- The gate with one more in line. If it is free, it is their turn. -/
def joined (s : Stepper) : Gate → Gate
  | free => granted s []
  | granted holder waiting => granted holder (waiting ++ [s])
  | stepping holder outcome finish waiting => stepping holder outcome finish (waiting ++ [s])

theorem underWay?_released (waiting : List Stepper) : (released waiting).underWay? = none := by
  cases waiting <;> rfl

theorem underWay?_joined (s : Stepper) (g : Gate) : (g.joined s).underWay? = g.underWay? := by
  cases g <;> rfl

end Gate

namespace Playback

/-- What happens to playback between two waits. -/
inductive Action where
  | play
  | pause
  | stop
  | reset
  | cancel
  | toggle
  | resumeFromCompleted
  | setSpeed (ms : Nat)
  | setTurbo (on : Bool)
  /-- A step by hand is asked for. -/
  | step
  /-- Someone gets in line at the gate, and waits there even if it is free. -/
  | lineUp (s : Stepper)
  /-- Playback makes a move of itself. -/
  | move (m : Move)
  | elapseTo (time : Nat)

/-- Whether an action leaves no run on. -/
def Action.halts : Action → Bool
  | pause | stop | reset | cancel => true
  | _ => false

/-- Whether an action may start a run. -/
def Action.mayPlay : Action → Bool
  | play | toggle => true
  | _ => false

variable {σ : Type} {w : Workload σ} {p q r : Playback σ}

def act (w : Workload σ) (p : Playback σ) : Action → Playback σ
  | .play => p.play.1
  | .pause => p.pause
  | .stop => p.stop
  | .reset => p.reset
  | .cancel => p.cancel
  | .toggle => p.toggle
  | .resumeFromCompleted => p.resumeFromCompleted.1
  | .setSpeed ms => (p.setSpeed ms).1
  | .setTurbo on => p.setTurbo on
  | .step => (p.requestStep w).1
  | .lineUp s => { p with gate := p.gate.joined s }
  | .move m => p.move w m
  | .elapseTo time => p.elapseTo time

/-- Playback after some actions. -/
def after (w : Workload σ) (p : Playback σ) (actions : List Action) : Playback σ :=
  actions.foldl (act w) p

/-- Whether an action calls the step function: it comes to different things with different ones. -/
def Begins (p : Playback σ) (a : Action) : Prop := ∃ w w' : Workload σ, p.act w a ≠ p.act w' a

/-- Who acts. -/
def actor? (p : Playback σ) : Action → Option Stepper
  | .step => some (.hand p.tickets)
  | .move (.begin run) => some (.loop run)
  | .move (.wake s) => some (.loop s.run)
  | .move .proceed =>
    match p.gate with
    | .granted holder _ => some holder
    | _ => none
  | _ => none

/-- Whether an action calls the step function on behalf of the loop of a run. -/
def LoopBegins (p : Playback σ) (a : Action) (run : Nat) : Prop :=
  p.Begins a ∧ p.actor? a = some (.loop run)

/-! ## The calls of the step function -/

/-- How playback `f w` after an action of someone depends on the step function `w`. -/
inductive Call (p : Playback σ) (s : Stepper) (f : Workload σ → Playback σ) : Prop where
  /-- It is not called. -/
  | never (q : Playback σ) (hf : ∀ w, f w = q) (hgate : q.gate.underWay? = p.gate.underWay?)
  /-- It is called once, while no other call is under way. -/
  | once (q : Playback σ) (waiting : List Stepper) (hf : ∀ w, f w = q.takeStep w s waiting)
      (hwork : q.work = p.work) (hcount : q.status.currentStep = p.status.currentStep)
      (hidle : p.gate.underWay? = none)
      (hloop : ∀ run, s = .loop run → p.isLive run = true ∧ p.status.isRunning = true)

/-- A call in playback that differs in what does not matter for it. -/
theorem Call.of_frame {s : Stepper} {f : Workload σ → Playback σ} (h : Call q s f)
    (hgate : q.gate = p.gate) (hwork : q.work = p.work)
    (hcount : q.status.currentStep = p.status.currentStep)
    (hloop : ∀ run, s = .loop run → q.isLive run = true → q.status.isRunning = true →
      p.isLive run = true ∧ p.status.isRunning = true) : Call p s f := by
  cases h with
  | never r hf hsame => exact .never r hf (hgate ▸ hsame)
  | once r waiting hf hwork' hcount' hidle hlive =>
    refine .once r waiting hf (hwork'.trans hwork) (hcount'.trans hcount) (hgate ▸ hidle) ?_
    intro run hs
    exact hloop run hs (hlive run hs).1 (hlive run hs).2

theorem call_approach (p : Playback σ) (s : Stepper)
    (hloop : ∀ run, s = .loop run → p.isLive run = true ∧ p.status.isRunning = true) :
    Call p s fun w => p.approach w s := by
  unfold approach
  cases hgate : p.gate with
  | free => exact .once p [] (fun _ => rfl) rfl rfl (by rw [hgate]; rfl) hloop
  | granted holder waiting => exact .never _ (fun _ => rfl) (by rw [hgate]; rfl)
  | stepping holder outcome finish waiting => exact .never _ (fun _ => rfl) (by rw [hgate]; rfl)

theorem call_goOn (p : Playback σ) (run : Nat) : Call p (.loop run) fun w => p.goOn w run := by
  unfold goOn
  by_cases hgo : (p.isLive run && p.status.isRunning) = true
  · simp only [hgo, if_true]
    refine p.call_approach (.loop run) ?_
    intro run' hrun
    injection hrun with hrun
    rw [← hrun]
    exact Bool.and_eq_true_iff.mp hgo
  · exact .never p (fun _ => if_neg hgo) rfl

theorem call_begin (p : Playback σ) (run : Nat) : Call p (.loop run) fun w => p.begin w run :=
  (call_goOn { p with fresh := p.fresh.erase run } run).of_frame rfl rfl rfl
    fun _ _ hlive hrunning => ⟨hlive, hrunning⟩

theorem call_wake (p : Playback σ) (s : Sleeper) : Call p (.loop s.run) fun w => p.wake w s := by
  unfold wake
  simp only
  split
  · exact .never _ (fun _ => rfl) rfl
  · exact (call_goOn { p with sleeping := p.sleeping.erase s } s.run).of_frame rfl rfl rfl
      fun _ _ hlive hrunning => ⟨hlive, hrunning⟩

/-- The one whose turn it is looks again before taking a step. -/
theorem call_proceed {s : Stepper} {waiting : List Stepper} (hgate : p.gate = .granted s waiting) :
    Call p s fun w => p.proceed w := by
  have hidle : p.gate.underWay? = none := by
    rw [hgate]
    rfl
  unfold proceed
  rw [hgate]
  cases s with
  | hand ticket => exact .once p waiting (fun _ => rfl) rfl rfl hidle nofun
  | loop run =>
    simp only
    by_cases hgo : (p.isLive run && p.status.isRunning) = true
    · simp only [hgo, if_true]
      refine .once p waiting (fun _ => rfl) rfl rfl hidle ?_
      intro run' hrun
      injection hrun with hrun
      rw [← hrun]
      exact Bool.and_eq_true_iff.mp hgo
    · refine .never _ (fun w => if_neg hgo) ?_
      rw [hidle]
      split <;> exact Gate.underWay?_released waiting

theorem call_requestStep (p : Playback σ) :
    Call p (.hand p.tickets) fun w => (p.requestStep w).1 := by
  unfold requestStep
  simp only
  split
  · exact .never _ (fun _ => rfl) rfl
  · split
    · exact (call_approach _ (.hand p.tickets) nofun).of_frame rfl rfl rfl nofun
    · exact (call_approach _ (.hand p.tickets) nofun).of_frame rfl rfl rfl nofun

/-- After a step that lasts its call is under way, and after any other none is. -/
theorem underWay?_takeStep (p : Playback σ) (s : Stepper) (waiting : List Stepper) :
    (p.takeStep w s waiting).gate.underWay?
      = if (w p.status.currentStep p.work).durationMs = 0 then none else some s := by
  unfold takeStep
  simp only
  split
  · rw [← Gate.underWay?_released waiting]
    unfold settle
    cases s with
    | loop run => exact congrArg _ (settled_afterLoopStep _ run _).gate_eq
    | hand ticket => exact congrArg _ (settled_afterHandStep _ ticket _).gate_eq
  · rfl

/-- A step taken under one step function is not what it is under every other. -/
theorem exists_takeStep_ne (p : Playback σ) (s : Stepper) (waiting : List Stepper) :
    ∃ w w' : Workload σ, p.takeStep w s waiting ≠ p.takeStep w' s waiting := by
  refine ⟨fun _ x => ⟨x, [], .more, 0⟩, fun _ x => ⟨x, [], .more, 1⟩, fun he => ?_⟩
  have hsame := congrArg (fun q => q.gate.underWay?) he
  simp only [underWay?_takeStep] at hsame
  exact nomatch hsame

/-- What is left of a call under way after it has landed. -/
theorem underWay?_land (p : Playback σ) : p.land.gate.underWay? = none := by
  unfold land
  cases hgate : p.gate with
  | free => simp only [hgate]; rfl
  | granted holder waiting => simp only [hgate]; rfl
  | stepping holder outcome finish waiting =>
    rw [← Gate.underWay?_released waiting]
    unfold settle
    cases holder with
    | loop run => exact congrArg _ (settled_afterLoopStep _ run _).gate_eq
    | hand ticket => exact congrArg _ (settled_afterHandStep _ ticket _).gate_eq

/-- Every action but a landing leaves a call under way alone, and either does without the step function
or calls it for the one who acts. -/
theorem act_cases (p : Playback σ) {a : Action} (ha : a ≠ .move .land) :
    (∃ q : Playback σ, (∀ w, p.act w a = q) ∧ q.gate.underWay? = p.gate.underWay?) ∨
    (∃ s, p.actor? a = some s ∧ Call p s fun w => p.act w a) := by
  cases a with
  | play => exact Or.inl ⟨_, fun _ => rfl, congrArg _ p.still_play.gate_eq⟩
  | toggle => exact Or.inl ⟨_, fun _ => rfl, congrArg _ p.still_toggle.gate_eq⟩
  | resumeFromCompleted =>
    exact Or.inl ⟨_, fun _ => rfl, congrArg _ p.still_resumeFromCompleted.gate_eq⟩
  | pause | stop | reset | cancel | setSpeed | setTurbo | elapseTo =>
    exact Or.inl ⟨_, fun _ => rfl, rfl⟩
  | lineUp s => exact Or.inl ⟨_, fun _ => rfl, Gate.underWay?_joined s p.gate⟩
  | step => exact Or.inr ⟨_, rfl, p.call_requestStep⟩
  | move m =>
    cases m with
    | begin run => exact Or.inr ⟨_, rfl, p.call_begin run⟩
    | wake s => exact Or.inr ⟨_, rfl, p.call_wake s⟩
    | land => exact absurd rfl ha
    | proceed =>
      cases hgate : p.gate with
      | granted s waiting =>
        refine Or.inr ⟨s, ?_, call_proceed hgate⟩
        unfold actor?
        rw [hgate]
      | free =>
        refine Or.inl ⟨p, fun w => ?_, congrArg _ hgate⟩
        show p.proceed w = p
        unfold proceed
        rw [hgate]
      | stepping holder outcome finish waiting =>
        refine Or.inl ⟨p, fun w => ?_, congrArg _ hgate⟩
        show p.proceed w = p
        unfold proceed
        rw [hgate]

/-- A call of the step function is made by someone, while no other is under way, and by a loop only if
its run is live and running. -/
theorem Begins.exists_actor {a : Action} (h : p.Begins a) :
    p.gate.underWay? = none ∧ ∃ s, p.actor? a = some s ∧
      ∀ run, s = .loop run → p.isLive run = true ∧ p.status.isRunning = true := by
  obtain ⟨w, w', hne⟩ := h
  by_cases hland : a = .move .land
  · subst hland
    exact absurd rfl hne
  rcases p.act_cases hland with ⟨q, hq, -⟩ | ⟨s, hs, hcall⟩
  · exact absurd ((hq w).trans (hq w').symm) hne
  · cases hcall with
    | never q hq => exact absurd ((hq w).trans (hq w').symm) hne
    | once q waiting hq hwork hcount hidle hloop => exact ⟨hidle, s, hs, hloop⟩

theorem LoopBegins.live {a : Action} {run : Nat} (h : p.LoopBegins a run) :
    p.isLive run = true ∧ p.status.isRunning = true := by
  obtain ⟨-, s, hs, hloop⟩ := h.1.exists_actor
  exact hloop run (Option.some.inj (hs.symm.trans h.2))

/-- What a loop that goes on comes to depends on the step function, if its run is live and running and the
gate is free. -/
theorem exists_goOn_ne {run : Nat} (hfree : p.gate = .free) (hlive : p.isLive run = true)
    (hrunning : p.status.isRunning = true) :
    ∃ w w' : Workload σ, p.goOn w run ≠ p.goOn w' run := by
  have hgo : ∀ w, p.goOn w run = p.takeStep w (.loop run) [] := by
    intro w
    unfold goOn approach
    rw [hlive, hrunning, hfree]
    rfl
  obtain ⟨w, w', hne⟩ := p.exists_takeStep_ne (.loop run) []
  refine ⟨w, w', ?_⟩
  rwa [hgo w, hgo w']

/-- Conversely, a loop that moves while its run is live and running and the gate is free does begin a
step. -/
theorem loopBegins_begin_iff (p : Playback σ) (run : Nat) : p.LoopBegins (.move (.begin run)) run ↔
    p.gate = .free ∧ p.isLive run = true ∧ p.status.isRunning = true := by
  constructor
  · intro h
    refine ⟨?_, h.live⟩
    obtain ⟨⟨w, w', hne⟩, -⟩ := h
    cases hgate : p.gate with
    | free => rfl
    | granted holder waiting | stepping holder outcome finish waiting =>
      refine absurd ?_ hne
      show p.begin w run = p.begin w' run
      unfold begin goOn approach
      simp only [hgate]
  · rintro ⟨hfree, hlive, hrunning⟩
    exact ⟨exists_goOn_ne (p := { p with fresh := p.fresh.erase run }) hfree hlive hrunning, rfl⟩

/-- So does one that wakes. -/
theorem loopBegins_wake {s : Sleeper} (hfree : p.gate = .free) (hlive : p.isLive s.run = true)
    (hrunning : p.status.isRunning = true) : p.LoopBegins (.move (.wake s)) s.run := by
  have hheld : p.status.isHeld = false := by
    unfold Status.isHeld
    rw [(Status.isRunning_iff.mp hrunning).2.1, Bool.and_false]
  have hwake : ∀ w, p.act w (.move (.wake s))
      = { p with sleeping := p.sleeping.erase s }.goOn w s.run := by
    intro w
    show p.wake w s = _
    unfold wake
    simp only [hheld, Bool.and_false, Bool.false_eq_true, if_false]
  obtain ⟨w, w', hne⟩ :=
    exists_goOn_ne (p := { p with sleeping := p.sleeping.erase s }) hfree hlive hrunning
  refine ⟨⟨w, w', ?_⟩, rfl⟩
  rwa [hwake w, hwake w']

/-- Only the lists of those who wait differ. -/
structure SameScene (p q : Playback σ) : Prop where
  gate : q.gate = p.gate
  status : q.status = p.status
  work : q.work = p.work
  log : q.log = p.log

/-- Where steps take no time, a loop that moves is only taken off those that wait or put back, or it takes
a step. -/
theorem move_cases (hfree : p.gate = .free) (m : Move) :
    ((∀ run, ¬ p.LoopBegins (.move m) run) ∧ p.SameScene (p.move w m)) ∨
    ∃ run q, p.LoopBegins (.move m) run ∧ p.SameScene q ∧ q.isLive run = true ∧
      q.status.isRunning = true ∧ p.move w m = q.goOn w run := by
  have hbegins : ∀ {run run'}, p.actor? (.move m) = some (.loop run) → p.LoopBegins (.move m) run' →
      p.isLive run = true ∧ p.status.isRunning = true := by
    intro run run' hactor hbegins
    obtain rfl := Stepper.loop.inj (Option.some.inj (hactor.symm.trans hbegins.2))
    exact hbegins.live
  cases m with
  | begin run =>
    cases hgo : p.isLive run && p.status.isRunning with
    | false =>
      refine Or.inl ⟨fun run' h => ?_, ?_⟩
      · rw [Bool.and_eq_true_iff.mpr (hbegins rfl h)] at hgo
        cases hgo
      · show p.SameScene ({ p with fresh := p.fresh.erase run }.goOn w run)
        rw [goOn_of_not (p := { p with fresh := p.fresh.erase run }) hgo]
        exact ⟨rfl, rfl, rfl, rfl⟩
    | true =>
      obtain ⟨hlive, hrunning⟩ := Bool.and_eq_true_iff.mp hgo
      exact Or.inr ⟨run, { p with fresh := p.fresh.erase run },
        (p.loopBegins_begin_iff run).mpr ⟨hfree, hlive, hrunning⟩, ⟨rfl, rfl, rfl, rfl⟩, hlive, hrunning,
        rfl⟩
  | wake s =>
    cases hgo : p.isLive s.run && p.status.isRunning with
    | false =>
      refine Or.inl ⟨fun run' h => ?_, ?_⟩
      · rw [Bool.and_eq_true_iff.mpr (hbegins rfl h)] at hgo
        cases hgo
      · show p.SameScene (p.wake w s)
        unfold wake
        simp only
        split
        · exact ⟨rfl, rfl, rfl, rfl⟩
        · rw [goOn_of_not (p := { p with sleeping := p.sleeping.erase s }) hgo]
          exact ⟨rfl, rfl, rfl, rfl⟩
    | true =>
      obtain ⟨hlive, hrunning⟩ := Bool.and_eq_true_iff.mp hgo
      have hheld : p.status.isHeld = false := by
        unfold Status.isHeld
        rw [(Status.isRunning_iff.mp hrunning).2.1, Bool.and_false]
      refine Or.inr ⟨s.run, { p with sleeping := p.sleeping.erase s },
        loopBegins_wake hfree hlive hrunning, ⟨rfl, rfl, rfl, rfl⟩, hlive, hrunning, ?_⟩
      show p.wake w s = _
      unfold wake
      simp only [hheld, Bool.and_false, Bool.false_eq_true, if_false]
  | proceed =>
    rw [move_proceed_of_free hfree]
    refine Or.inl ⟨fun run h => ?_, rfl, rfl, rfl, rfl⟩
    have hactor := h.2
    unfold actor? at hactor
    rw [hfree] at hactor
    cases hactor
  | land =>
    rw [move_land_of_free hfree]
    exact Or.inl ⟨fun run h => (nomatch h.2), rfl, rfl, rfl, rfl⟩

/-! ## The calls under way -/

/-- Playback with a list of who made the calls of the step function that have not returned. -/
structure Watched (σ : Type) where
  playback : Playback σ
  calls : List Stepper

namespace Watched

/-- The calls that go on through an action. The one whose step lands returns. -/
def ongoing (v : Watched σ) : Action → List Stepper
  | .move .land =>
    match v.playback.gate with
    | .stepping holder _ _ _ => v.calls.erase holder
    | _ => v.calls
  | _ => v.calls

open Classical in
/-- The calls made by an action that have not returned after it. -/
noncomputable def made (w : Workload σ) (v : Watched σ) (a : Action) : List Stepper :=
  if v.playback.Begins a ∧ (w v.playback.status.currentStep v.playback.work).durationMs ≠ 0 then
    (v.playback.actor? a).toList
  else []

noncomputable def act (w : Workload σ) (v : Watched σ) (a : Action) : Watched σ where
  playback := v.playback.act w a
  calls := v.ongoing a ++ v.made w a

noncomputable def after (w : Workload σ) (v : Watched σ) (actions : List Action) : Watched σ :=
  actions.foldl (act w) v

/-- The only call under way is the one made by the holder of the gate. -/
def Gated (v : Watched σ) : Prop := v.calls = v.playback.gate.underWay?.toList

variable {v : Watched σ}

theorem made_of_not_begins {a : Action} (h : ¬ v.playback.Begins a) : v.made w a = [] :=
  if_neg fun hb => h hb.1

theorem ongoing_of_ne_land {a : Action} (ha : a ≠ .move .land) : v.ongoing a = v.calls := by
  unfold ongoing
  split
  · exact absurd rfl ha
  · rfl

theorem Gated.act (h : v.Gated) (a : Action) : (v.act w a).Gated := by
  unfold Gated at h ⊢
  by_cases hland : a = .move .land
  · -- the call under way returns
    subst hland
    have hnone : ¬ v.playback.Begins (.move .land) := fun ⟨_, _, hne⟩ => hne rfl
    have hcalls : v.ongoing (.move .land) = [] := by
      unfold ongoing
      rw [h]
      cases hgate : v.playback.gate <;> simp [Gate.underWay?]
    show v.ongoing _ ++ v.made w _ = v.playback.land.gate.underWay?.toList
    rw [hcalls, made_of_not_begins hnone, underWay?_land]
    rfl
  · show v.ongoing a ++ v.made w a = (v.playback.act w a).gate.underWay?.toList
    rw [ongoing_of_ne_land hland, h]
    have hquiet : ∀ q : Playback σ, (∀ w, v.playback.act w a = q) →
        q.gate.underWay? = v.playback.gate.underWay? →
        v.playback.gate.underWay?.toList ++ v.made w a
          = (v.playback.act w a).gate.underWay?.toList := by
      intro q hq hgate
      have hnone : ¬ v.playback.Begins a := fun ⟨w, w', hne⟩ => hne ((hq w).trans (hq w').symm)
      rw [made_of_not_begins hnone, hq w, hgate, List.append_nil]
    rcases v.playback.act_cases hland with ⟨q, hq, hgate⟩ | ⟨s, hs, hcall⟩
    · exact hquiet q hq hgate
    · cases hcall with
      | never q hq hgate => exact hquiet q hq hgate
      | once q waiting hq hwork hcount hidle hloop =>
        -- a call is made, and it returns at once or is the one under way
        have hbegins : v.playback.Begins a := by
          obtain ⟨w, w', hne⟩ := exists_takeStep_ne q s waiting
          exact ⟨w, w', by rwa [hq w, hq w']⟩
        rw [hidle, hq w, underWay?_takeStep, hcount, hwork]
        unfold made
        rw [hs]
        by_cases hlasts : (w v.playback.status.currentStep v.playback.work).durationMs = 0
        · rw [if_neg fun hb => hb.2 hlasts, if_pos hlasts]
          rfl
        · rw [if_pos ⟨hbegins, hlasts⟩, if_neg hlasts]
          rfl

theorem Gated.after (h : v.Gated) (actions : List Action) : (v.after w actions).Gated := by
  induction actions generalizing v with
  | nil => exact h
  | cons a actions ih => exact ih (h.act a)

end Watched

/-! ## The life of runs through actions -/

theorem unrevived_act (p : Playback σ) {a : Action} (ha : a.mayPlay = false) :
    p.Unrevived (p.act w a) := by
  cases a with
  | play | toggle => exact absurd ha Bool.noConfusion
  | pause => exact p.unrevived_pause
  | stop => exact p.unrevived_stop
  | reset => exact p.unrevived_reset
  | cancel => exact ⟨rfl, nofun, id⟩
  | resumeFromCompleted => exact p.unrevived_resumeFromCompleted
  | step => exact p.unrevived_requestStep
  | move m => exact p.unrevived_move m
  | setSpeed | setTurbo | lineUp | elapseTo => exact ⟨rfl, id, id⟩

theorem later_act (p : Playback σ) (a : Action) : p.Later (p.act w a) := by
  cases hplay : a.mayPlay with
  | false => exact (p.unrevived_act hplay).later
  | true =>
    cases a with
    | play => exact p.later_play
    | toggle => exact p.later_toggle
    | _ => exact absurd hplay Bool.noConfusion

theorem later_after (p : Playback σ) (actions : List Action) : p.Later (p.after w actions) := by
  induction actions generalizing p with
  | nil => exact .refl p
  | cons a actions ih => exact (p.later_act a).trans (ih (p.act w a))

theorem unrevived_after (p : Playback σ) {actions : List Action}
    (h : ∀ a ∈ actions, a.mayPlay = false) : p.Unrevived (p.after w actions) := by
  induction actions generalizing p with
  | nil => exact .refl p
  | cons a actions ih =>
    exact (p.unrevived_act (h a List.mem_cons_self)).trans
      (ih (p.act w a) fun b hb => h b (List.mem_cons_of_mem a hb))

/-- An action that changes the latest run starts one, which is live. -/
theorem started_act {a : Action} (h : p.run < (p.act w a).run) :
    (p.act w a).run = p.run + 1 ∧ (p.act w a).isLive (p.run + 1) = true := by
  cases hplay : a.mayPlay with
  | false => exact absurd h (Nat.not_lt_of_le (Nat.le_of_eq (p.unrevived_act hplay).run_eq))
  | true =>
    cases a with
    | play => exact started_play h
    | toggle => exact started_toggle h
    | _ => exact absurd hplay Bool.noConfusion

/-- After an action that halts playback, no run started so far is both live and running. -/
theorem over_of_halts {a : Action} (ha : a.halts = true) {run : Nat}
    (hlive : (p.act w a).isLive run = true) : (p.act w a).status.isRunning ≠ true := by
  cases a with
  | pause => exact Status.not_isRunning_of_paused rfl
  | stop | reset => exact Status.not_isRunning_of_off rfl
  | cancel => exact absurd (isLive_iff.mp hlive).2 Bool.noConfusion
  | _ => exact absurd ha Bool.noConfusion

/-- Once an action has halted playback or started a newer run, the loops of the runs before it begin no
step. -/
theorem LoopBegins.newer {a b : Action} {run : Nat} {actions : List Action}
    (ha : a.halts = true ∨ p.run < (p.act w a).run)
    (h : ((p.act w a).after w actions).LoopBegins b run) : p.run < run := by
  obtain ⟨hlive, hrunning⟩ := h.live
  have hlater := (p.act w a).later_after (w := w) actions
  have hle := (p.later_act (w := w) a).run_le
  rcases hlater.live run hlive with hold | hnew
  · -- the run was live already when the action was over
    have hrun := (isLive_iff.mp hold).1
    rcases ha with hhalts | hnewer
    · rcases hlater.running hrunning with hon | hnew
      · exact absurd hon (over_of_halts hhalts hold)
      · have hlatest := (isLive_iff.mp hlive).1
        omega
    · omega
  · omega

/-- In whatever order controls and loops act on playback, and however long steps last: at most one call
of the step function is under way, and none is made while one is; a loop makes a call only while its
run is live and playback is on, not held up and not completed; so once a run was stopped, reset,
cancelled, held up or replaced by a newer one its loop makes no call any more, and once playback is held
up no loop makes one before a run is started; and at most one run is live: a run is live when it is
started, and one that is cancelled stays so. -/
theorem no_stale_step (w : Workload σ) (c : PlaybackConfig) (bounds : DelayBounds) (x : σ)
    (actions : List Action) :
    let v := (Watched.mk (new c bounds x) []).after w actions
    let p := v.playback
    (v.calls.length ≤ 1 ∧ ∀ a, p.Begins a → v.calls = [] ∧ (p.actor? a).isSome = true) ∧
    ((∀ a run, p.LoopBegins a run → p.isLive run = true ∧ p.status.playing = true ∧
        p.status.paused = false ∧ p.status.completed = false) ∧
      (∀ a, a.halts = true ∨ p.run < (p.act w a).run → ∀ later b run,
        ((p.act w a).after w later).LoopBegins b run → p.run < run) ∧
      (∀ later, (∀ a ∈ later, a.mayPlay = false) → ∀ b run,
        ¬ ((p.act w .pause).after w later).LoopBegins b run)) ∧
    ((∀ run run', p.isLive run = true → p.isLive run' = true → run = run') ∧
      (∀ a, p.run < (p.act w a).run →
        (p.act w a).run = p.run + 1 ∧ (p.act w a).isLive (p.run + 1) = true) ∧
      (∀ run ≤ p.run, p.isLive run = false → ∀ later, (p.after w later).isLive run = false)) := by
  intro v p
  have hgated : v.calls = p.gate.underWay?.toList := by
    have hfirst : (Watched.mk (new c bounds x) []).Gated := rfl
    exact hfirst.after actions
  refine ⟨⟨?_, fun a ha => ?_⟩, ⟨fun a run ha => ?_, fun a ha later b run => LoopBegins.newer ha,
    fun later hquiet b run hb => ?_⟩, fun run run' hlive hlive' => ?_, fun a => started_act,
    fun run hrun hdead later => ?_⟩
  · rw [hgated]
    cases p.gate.underWay? <;> simp
  · obtain ⟨hidle, s, hs, -⟩ := ha.exists_actor
    rw [hgated, hidle, hs]
    exact ⟨rfl, rfl⟩
  · exact ⟨ha.live.1, Status.isRunning_iff.mp ha.live.2⟩
  · -- the loop would be that of a newer run, and there is none
    have hnewer : p.run < run := LoopBegins.newer (Or.inl rfl) hb
    have hsame := ((p.act w .pause).unrevived_after (w := w) hquiet).run_eq
    have hlatest := (isLive_iff.mp hb.live.1).1
    have hpaused : (p.act w .pause).run = p.run := rfl
    omega
  · exact (isLive_iff.mp hlive).1.trans (isLive_iff.mp hlive').1.symm
  · refine Bool.eq_false_iff.mpr fun hlive => ?_
    rcases (p.later_after (w := w) later).live run hlive with hold | hnew
    · exact Bool.false_ne_true (hdead.symm.trans hold)
    · omega

/-- Work that is never over, each step of which lasts. -/
def lasting : Workload Nat := fun _ x => ⟨x + 1, [], .more, 5⟩

/-- A loop that begins its first step, and is stopped while that step lasts, begins no second one. -/
theorem no_second_step :
    let p := (new .standard ⟨10, 2000, by decide⟩ 0).after lasting [.play]
    p.LoopBegins (.move (.begin 1)) 1 ∧ ∀ later b,
      ¬ (((p.act lasting (.move (.begin 1))).act lasting .stop).after lasting later).LoopBegins b 1 := by
  intro p
  refine ⟨(p.loopBegins_begin_iff 1).mpr ⟨rfl, rfl, rfl⟩, fun later b hb => ?_⟩
  obtain ⟨-, ⟨-, hover, -⟩, -⟩ :=
    no_stale_step lasting .standard ⟨10, 2000, by decide⟩ 0 [.play, .move (.begin 1)]
  exact Nat.lt_irrefl 1 (hover .stop (Or.inl rfl) later b 1 hb)

end Playback

end Retrace
