import Barrage.Proofs.Machine.Bystanders
import Barrage.Proofs.Machine.PhaseRuns

/-!
# What cuts a phase short

Three things can cut a phase short from outside: a blow that takes the last hit points, a shift, and the end of
a source that the phase depends on. Each of them cancels the token of its children, and nothing else that is done
from outside does. The fourth is its own time, which a task of its own watches.

## Main definitions

* `Outside.Cuts`, `PhaseRun.CutAmong`: the actions from outside that cut a phase
* `PhaseRun.Held`: the phase that the executor knows

## Main results

* `PhaseRun.Held.acted`: what some actions from outside do to a phase
* `PhaseRun.run_timer`: the turn of the task that watches the time of a phase
* `PhaseRun.completions_settle`: the end of a phase is written down
-/

namespace Barrage

namespace Sources

variable {s : Sources} {source other : Nat}

/-- A cancellation is not the end of any time. -/
theorem isExpired_cancel : (s.cancel source).isExpired other = s.isExpired other := by
  rw [isExpired, isExpired, cancel, getElem?_finish]
  split
  · cases s.states[other]? with
    | none => rfl
    | some old => cases old <;> rfl
  · rfl

theorem isCancelled_of_isExpired (h : s.isExpired source) : s.isCancelled source := by
  have hstate : s.states[source]? = some .expired := by simpa [isExpired] using h
  exact isCancelled_iff.2 ⟨_, hstate, by decide⟩

/-- The time of a live source that exists can run out. -/
theorem isExpired_expire (hlive : ¬ s.isCancelled source) (hsource : source < s.states.length) :
    (s.expire source).isExpired source := by
  have hstate : s.states[source]? = some .live := by
    rw [List.getElem?_eq_getElem hsource] at *
    by_contra hne
    exact hlive (isCancelled_iff.2 ⟨_, List.getElem?_eq_getElem hsource, fun h => hne (by rw [h])⟩)
  rw [isExpired, expire, getElem?_finish, if_pos rfl, hstate]
  rfl

end Sources

/-! ### Actions from outside -/

/-- The hit points that a blow leaves in a run. -/
def Machine.hpAfter (m : Machine) (amount : Float) : Float :=
  (m.shared.hosts.damage m.shared.executor.entity amount).hp m.shared.executor.entity

/-- The hit points of the executor in a run. -/
def Machine.hp (m : Machine) : Float := m.shared.hosts.hp m.shared.executor.entity

/-- An action from outside that cuts a phase in a run: a blow that takes the last hit points, a shift, or the end
of a source that the phase depends on. -/
def Outside.Cuts (run : PhaseRun) (m : Machine) : Outside → Prop
  | damage amount => m.hp > 0.0 ∧ m.hpAfter amount ≤ 0.0
  | shift => True
  | cancel source => source ∈ run.joint.sources
  | _ => False

namespace PhaseRun

/-- Some of the actions that are done one after another cuts the phase. -/
def CutAmong (run : PhaseRun) : List Outside → Machine → Prop
  | [], _ => False
  | action :: rest, m => action.Cuts run m ∨ run.CutAmong rest (action.act.run m).2

/-- The phase is the one that the executor knows, and the sources that it depends on exist. -/
structure Held (run : PhaseRun) (m : Machine) : Prop where
  shifter : m.shared.executor.shifter = some run.source
  known : ∀ source ∈ run.joint.sources, source < m.sources.states.length

variable {run : PhaseRun} {m p q : Machine}

theorem source_mem_joint (run : PhaseRun) : run.source ∈ run.joint.sources := mem_joint.2 (.inr rfl)

/-- Moments of a run with the same cuts: what is told of the sources of a phase by an action from outside that
may cut it. -/
structure Passes (run : PhaseRun) (cut : Prop) (m q : Machine) : Prop where
  shifter : q.shared.executor.shifter = m.shared.executor.shifter
  completions : q.shared.campaign.completions = m.shared.campaign.completions
  length : q.sources.states.length = m.sources.states.length
  expired : ∀ source, q.sources.isExpired source = m.sources.isExpired source
  cuts : cut → run.joint.isCancelled q.sources
  spares : ¬ cut → run.joint.Agrees m.sources q.sources

/-- What leaves the sources alone cuts nothing. -/
theorem passes_of_shared {cut : Prop} {w : World} (hshifter : w.executor.shifter = m.shared.executor.shifter)
    (hcompletions : w.campaign.completions = m.shared.campaign.completions) (hcut : ¬ cut) :
    run.Passes cut m { m with shared := w } :=
  ⟨hshifter, hcompletions, rfl, fun _ => rfl, fun h => absurd h hcut, fun _ => .refl _ _⟩

/-- The end of a source. -/
theorem passes_of_cancel {cut : Prop} {w : World} {source : Nat}
    (hshifter : w.executor.shifter = m.shared.executor.shifter)
    (hcompletions : w.campaign.completions = m.shared.campaign.completions)
    (hcut : cut ↔ source ∈ run.joint.sources)
    (hknown : ∀ source ∈ run.joint.sources, source < m.sources.states.length) :
    run.Passes cut m { m with sources := m.sources.cancel source, shared := w } := by
  refine ⟨hshifter, hcompletions, by simp [Sources.cancel, Sources.finish], fun _ => Sources.isExpired_cancel,
    fun h => ?_, fun h other hother => ?_⟩
  · have hsource := hcut.1 h
    exact CancelToken.isCancelled_iff.2
      ⟨source, hsource, Sources.isCancelled_finish (by decide) (hknown source hsource)⟩
  · refine (Sources.getElem?_finish .cancelled source other m.sources).trans (if_neg fun heq => h (hcut.2 ?_))
    rw [heq]
    exact hother

theorem run_cancelPhase {source : Nat} (h : m.shared.executor.shifter = some source) :
    (World.cancelPhase : World.M Activity Bool).run m =
      (true, { m with sources := m.sources.cancel source }) := by
  have hget : (get : World.M Activity Machine).run m = (m, m) := rfl
  rw [World.cancelPhase, run_look hget, h]
  rfl

/-- A blow while a phase is running. -/
theorem run_damage (h : run.Held m) (amount : Float) :
    ((World.damage amount).run m).2 =
      { m with
        sources := if m.hp > 0.0 ∧ m.hpAfter amount ≤ 0.0 then m.sources.cancel run.source else m.sources
        shared := { m.shared with hosts := m.shared.hosts.damage m.shared.executor.entity amount } } := by
  let damaged : Machine :=
    { m with shared := { m.shared with hosts := m.shared.hosts.damage m.shared.executor.entity amount } }
  change ((if (decide (m.hp > 0.0) && decide (m.hpAfter amount ≤ 0.0)) = true then
      World.cancelPhase >>= fun _ => pure (m.hpAfter amount)
    else pure (m.hpAfter amount) : World.M Activity Float).run damaged).2 = _
  by_cases hcut : m.hp > 0.0 ∧ m.hpAfter amount ≤ 0.0
  · have hphase := run_cancelPhase (m := damaged) h.shifter
    rw [if_pos hcut, if_pos (by simpa using hcut)]
    exact congrArg Prod.snd hphase
  · rw [if_neg hcut, if_neg (by simpa using hcut)]
    rfl

/-- An action from outside while a phase is running. -/
theorem Held.act (h : run.Held m) (action : Outside) : run.Passes (action.Cuts run m) m (action.act.run m).2 := by
  cases action with
  | damage amount =>
    have hrun := run_damage h amount
    change run.Passes _ m ((World.damage amount).run m).2
    -- Damage cuts the phase only if it takes the last hit points there are.
    by_cases hcut : m.hp > 0.0 ∧ m.hpAfter amount ≤ 0.0
    · rw [hrun, if_pos hcut]
      exact passes_of_cancel rfl rfl ⟨fun _ => run.source_mem_joint, fun _ => hcut⟩ h.known
    · rw [hrun, if_neg hcut]
      exact passes_of_shared rfl rfl hcut
  | setHp hp => exact passes_of_shared rfl rfl id
  | shift =>
    have hrun : (Outside.shift.act.run m).2 =
        { m with
          sources := m.sources.cancel run.source
          shared :=
            { m.shared with
              executor := { m.shared.executor with events := m.shared.executor.events.push .phaseShifted } } } := by
      change ((fun running : Bool => if running = true then (World.emit .phaseShifted >>= fun _ => pure running)
        else pure running : Bool → World.M Activity Bool) (World.cancelPhase.run m).1 (World.cancelPhase.run m).2).2 = _
      rw [run_cancelPhase h.shifter]
      rfl
    rw [hrun]
    exact passes_of_cancel rfl rfl ⟨fun _ => run.source_mem_joint, fun _ => trivial⟩ h.known
  | cancel source =>
    exact passes_of_cancel (w := m.shared) rfl rfl Iff.rfl h.known
  | force index => exact passes_of_shared rfl rfl id
  | stop => exact passes_of_shared rfl rfl id
  | allowFinish allow => exact passes_of_shared rfl rfl id

theorem Held.of_passes {cut : Prop} (h : run.Held m) (hpasses : run.Passes cut m q) : run.Held q :=
  ⟨hpasses.shifter.trans h.shifter, fun source hsource => hpasses.length ▸ h.known source hsource⟩

/-- Actions from outside while a phase is running. -/
theorem Held.acted (h : run.Held m) (actions : List Outside) :
    run.Passes (run.CutAmong actions m) m (m.acted actions) := by
  induction actions generalizing m with
  | nil => exact ⟨rfl, rfl, rfl, fun _ => rfl, False.elim, fun _ => .refl _ _⟩
  | cons action rest ih =>
    have hfirst := h.act action
    have hrest := ih (h.of_passes hfirst)
    rw [Machine.acted_cons]
    refine ⟨hrest.shifter.trans hfirst.shifter, hrest.completions.trans hfirst.completions,
      hrest.length.trans hfirst.length, fun source => (hrest.expired source).trans (hfirst.expired source), ?_, ?_⟩
    · rintro (hcut | hcut)
      · exact CancelToken.isCancelled_of_ages (Machine.acted_keeps rest _).2.2.2 (hfirst.cuts hcut)
      · exact hrest.cuts hcut
    · intro hcut
      rw [CutAmong, not_or] at hcut
      exact (hfirst.spares hcut.1).trans (hrest.spares hcut.2)

/-! ### The time of a phase -/

/-- The turn of the task that watches the time of a phase. -/
theorem run_timer (hlive : ¬ run.joint.isCancelled p.sources) (left : Nat) :
    (run.timer left).step p =
      match left with
      | 0 => (.finished, { p with sources := p.sources.expire run.source })
      | left + 1 => (.waiting (run.timer left), p) := by
  rw [Activity.step, timer, Activity.turn, Activity.turn]
  cases left with
  | zero =>
    have hwait : ((Wait.frames 0 run.joint).step : Step (World.M Activity)).run p = (.finished, p) := by
      rw [Wait.step_eq]
      exact run_unlessCancelled.trans (if_neg hlive)
    exact run_look hwait
  | succ left =>
    have hwait : ((Wait.frames (left + 1) run.joint).step : Step (World.M Activity)).run p =
        (.waiting (.wait (.frames left run.joint)), p) := by
      rw [Wait.step_eq]
      exact run_unlessCancelled.trans (if_neg hlive)
    exact run_look hwait

/-! ### The end of a phase -/

/-- The end of a phase is written down in the turn in which its children are over. -/
theorem completions_settle {ending : Step (World.M Activity)} {answer : Except MachineError Unit}
    {cause : ClearCause} (hcause : run.causeOf p answer = .ok cause)
    (hending : ∀ q : Machine, q.Advances (fun _ => True) (ending.run q).2) :
    p.shared.campaign.completions ++ [run.completion cause p.clock.frame] <+:
      ((run.settle ending answer).run p).2.shared.campaign.completions := by
  obtain ⟨services, hrun⟩ := run_conclude hcause
  have hends := (hending ((run.conclude answer).run p).2).completions
  rw [hrun] at hends
  rw [run_settle, hrun]
  dsimp only
  rw [run_unlessCancelled]
  split
  · exact List.prefix_refl _
  · exact hends

end PhaseRun

end Barrage
