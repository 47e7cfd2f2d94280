import Barrage.Proofs.Machine.Frames

/-!
# The two ends of a phase

What happens when a phase is opened and when it is settled, as an equation for the run after it. A phase that
is opened makes a source of its own and is the one that the executor knows; with a timeout, it spawns the
task that watches its time. When it is settled the executor forgets it, its source is cancelled whatever its
children answered, and unless they failed its end is written down with its cause.

## Main results

* `PhaseRun.run_open`: the run after a phase was opened
* `PhaseRun.run_conclude`: the run after a phase was settled that has a cause
* `PhaseRun.isCancelled_conclude`: a phase that was settled leaves a cancelled source
-/

namespace Barrage

namespace PhaseRun

/-- The task that watches the time of a phase. -/
def timer (run : PhaseRun) (frames : Nat) : Activity := .andThen (.wait (.frames frames run.joint)) (.expire run.source)

/-- A phase that is opened in a run. -/
def opened (phase : Phase Callable) (index : Nat) (token : CancelToken) (p : Machine) : PhaseRun :=
  ⟨phase, index, token, p.sources.states.length, p.clock.frame⟩

/-- The run after a phase was opened: what the hosts and the services make of it is left open. -/
def afterOpen (run : PhaseRun) (hosts : Hosts) (services : Services) (p : Machine) : Machine :=
  { p with
    sources := p.sources.make.2
    spawned := p.spawned ++
      if run.phase.props.timeout > 0.0 then [run.timer (p.clock.framesFor run.phase.props.timeout)] else []
    shared := { p.shared with
      hosts
      services
      executor := { p.shared.executor with
        shifter := some run.source
        events := p.shared.executor.events.push (.phaseStarted run.index run.phase.props.title) }
      campaign := { p.shared.campaign with lenient := run.phase.props.lenient || p.shared.campaign.lenient } } }

/-- What happens when a phase is opened. -/
theorem run_open (phase : Phase Callable) (index : Nat) (token : CancelToken) (p : Machine) :
    ∃ hosts services, (PhaseRun.open phase index token).run p =
      (opened phase index token p, (opened phase index token p).afterOpen hosts services p) := by
  dsimp only [opened, afterOpen]
  unfold PhaseRun.open World.serve World.updateHosts World.setHp World.updateCampaign World.emit
    World.updateExecutor
  simp only [run_update, run_update_when, run_get, run_makeSource]
  cases phase.props.lenient <;> cases phase.props.cutin <;> cases p.shared.services.restartTimers <;>
    split <;> first | exact ⟨_, _, rfl⟩ | (rw [List.append_nil]; exact ⟨_, _, rfl⟩)

/-- The source of a phase that was opened exists. -/
theorem source_lt_of_open (phase : Phase Callable) (index : Nat) (token : CancelToken) (p : Machine) :
    ((PhaseRun.open phase index token).run p).1.source <
      ((PhaseRun.open phase index token).run p).2.sources.states.length := by
  obtain ⟨hosts, services, hrun⟩ := run_open phase index token p
  rw [hrun]
  simp [opened, afterOpen, Sources.make]

/-- What is written down about a phase that ends in some frame. -/
def completion (run : PhaseRun) (cause : ClearCause) (frame : Nat) : Completion :=
  ⟨run.index, run.phase.props.title, run.phase.props.type, cause, frame - run.started⟩

/-- The cause is found in what settling a phase does not touch. -/
theorem cutCause_congr (run : PhaseRun) {p q : Machine} (hhosts : q.shared.hosts = p.shared.hosts)
    (hentity : q.shared.executor.entity = p.shared.executor.entity) (hsources : q.sources = p.sources) :
    run.cutCause q = run.cutCause p := by
  rw [cutCause, cutCause, hhosts, hentity, hsources]

/-- What is done to the world when a phase begins to be settled. -/
def forgotten (run : PhaseRun) (w : World) : World :=
  let w := { w with executor := { w.executor with shifter := none } }
  if run.phase.props.lenient then { w with campaign := { w.campaign with lenient := false } } else w

theorem forgotten_eq (run : PhaseRun) (w : World) :
    run.forgotten w = { w with
      executor := { w.executor with shifter := none }
      campaign := { w.campaign with lenient := !run.phase.props.lenient && w.campaign.lenient } } := by
  unfold forgotten
  cases run.phase.props.lenient <;> rfl

/-- Why the children of a phase are over, if they answered so in some run. -/
def causeOf (run : PhaseRun) (p : Machine) : Except MachineError Unit → Except MachineError ClearCause
  | .ok () => .ok .cleared
  | .error .cancelled => .ok (run.cutCause p)
  | .error e => .error e

theorem run_cause?_eq (run : PhaseRun) (answer : Except MachineError Unit) (p : Machine) :
    (run.cause? answer).run p = (run.causeOf p answer, p) := by
  match answer with
  | .ok () => rfl
  | .error .cancelled => exact run_cause_cancelled run p
  | .error (.eval _) => rfl
  | .error (.leafType _ _ _) => rfl
  | .error (.duplicateBlock _) => rfl
  | .error (.stalled _) => rfl

theorem causeOf_congr (run : PhaseRun) {p q : Machine} (hhosts : q.shared.hosts = p.shared.hosts)
    (hentity : q.shared.executor.entity = p.shared.executor.entity) (hsources : q.sources = p.sources)
    (answer : Except MachineError Unit) : run.causeOf q answer = run.causeOf p answer := by
  unfold causeOf
  split
  · rfl
  · rw [run.cutCause_congr hhosts hentity hsources]
  · rfl

/-- There is no cause if the children of a phase failed, and only then. -/
theorem causeOf_eq_error_iff {run : PhaseRun} {answer : Except MachineError Unit} {p : Machine} {e : MachineError} :
    run.causeOf p answer = .error e ↔ answer = .error e ∧ e.isCancellation = false := by
  match answer with
  | .ok () => simp [causeOf]
  | .error .cancelled =>
    simp only [causeOf, reduceCtorEq, false_iff, not_and, Except.error.injEq]
    rintro rfl
    decide
  | .error (.eval _) | .error (.leafType _ _ _) | .error (.duplicateBlock _) | .error (.stalled _) =>
    simp only [causeOf, Except.error.injEq]
    exact ⟨fun h => ⟨h, by rw [← h]; rfl⟩, fun h => h.1⟩

/-- Settling a phase begins with what it installed; the cause is found after that. -/
theorem run_conclude_eq (run : PhaseRun) (answer : Except MachineError Unit) (p : Machine) :
    (run.conclude answer).run p =
      (match run.causeOf p answer with
      | .error e => do
        Scheduler.cancel run.source
        return .error e
      | .ok cause => do
        Scheduler.cancel run.source
        if run.phase.props.autocull then World.serve (.autocull run.phase.props.title)
        if cause ≠ .cleared && (← get).shared.executor.allowFinish then
          match run.phase.atCut with
          | some node => node.detach run.token
          | none => pure ()
        run.report cause
        return .ok () : World.M Activity (Except MachineError Unit)).run
      { p with shared := run.forgotten p.shared } := by
  unfold PhaseRun.conclude World.updateExecutor World.updateCampaign
  simp only [run_update, run_update_when]
  refine (run_look (run_cause?_eq run answer _)).trans ?_
  rw [causeOf_congr run (p := p)]
  · rfl
  · split <;> rfl
  · split <;> rfl
  · rfl

/-- What a phase leaves behind that ends for some cause, if it may. -/
def leaves (run : PhaseRun) (cause : ClearCause) (allowed : Bool) : List Activity :=
  if cause ≠ .cleared && allowed then run.phase.atCut.toList.map (.start · run.token) else []

/-- The run after a phase was settled whose children failed. -/
theorem run_conclude_of_error {run : PhaseRun} {answer : Except MachineError Unit} {p : Machine} {e : MachineError}
    (hcause : run.causeOf p answer = .error e) :
    (run.conclude answer).run p =
      (.error e, { p with sources := p.sources.cancel run.source, shared := run.forgotten p.shared }) := by
  rw [run_conclude_eq, hcause]
  rfl

/-- The run after a phase was settled that has a cause: what the services make of it is left open. -/
def afterConclude (run : PhaseRun) (cause : ClearCause) (services : Services) (p : Machine) : Machine :=
  { p with
    sources := p.sources.cancel run.source
    spawned := p.spawned ++ run.leaves cause p.shared.executor.allowFinish
    shared := { p.shared with
      services
      executor := { p.shared.executor with
        shifter := none
        events := p.shared.executor.events.push (.phaseEnded run.index cause) }
      campaign := { p.shared.campaign with
        completions := p.shared.campaign.completions ++ [run.completion cause p.clock.frame]
        lenient := !run.phase.props.lenient && p.shared.campaign.lenient } } }

/-- What happens when a phase is settled that has a cause. -/
theorem run_conclude {run : PhaseRun} {answer : Except MachineError Unit} {p : Machine} {cause : ClearCause}
    (hcause : run.causeOf p answer = .ok cause) :
    ∃ services, (run.conclude answer).run p = (.ok (), run.afterConclude cause services p) := by
  unfold afterConclude
  rw [run_conclude_eq, hcause, forgotten_eq]
  unfold World.serve
  simp only [run_cancel, run_update_when, run_get]
  unfold leaves
  cases run.phase.props.autocull <;> simp only [Bool.false_eq_true, if_false, if_true]
  all_goals
    split
    · cases run.phase.atCut with
      | none => exact ⟨_, by rw [Option.toList_none, List.map_nil, List.append_nil]; rfl⟩
      | some node => exact ⟨_, rfl⟩
    · exact ⟨_, by rw [List.append_nil]; rfl⟩

/-- The end of a phase, and the block that follows it. -/
theorem run_settle (run : PhaseRun) (ending : Step (World.M Activity)) (answer : Except MachineError Unit)
    (p : Machine) : (run.settle ending answer).run p =
      match (run.conclude answer).run p with
      | (.error e, q) => (.done (.error e), q)
      | (.ok (), q) => (Step.unlessCancelled run.token ending).run q := by
  rcases hrun : (run.conclude answer).run p with ⟨outcome, q⟩
  have hchange : (Stage.change (run.conclude answer) : World.M Activity _).run p = (outcome, q) := hrun
  rw [PhaseRun.settle, run_then hchange]
  cases outcome <;> rfl

/-- A phase that was settled leaves a cancelled source, also if its children failed. -/
theorem isCancelled_conclude {run : PhaseRun} (answer : Except MachineError Unit) {p : Machine}
    (hsource : run.source < p.sources.states.length) :
    ((run.conclude answer).run p).2.sources.isCancelled run.source := by
  have hcancel : (p.sources.cancel run.source).isCancelled run.source :=
    Sources.isCancelled_finish (by decide) hsource
  cases hcause : run.causeOf p answer with
  | error e =>
    rw [run_conclude_eq, hcause]
    exact hcancel
  | ok cause =>
    obtain ⟨services, hrun⟩ := run_conclude hcause
    rw [hrun]
    exact hcancel

end PhaseRun

end Barrage
