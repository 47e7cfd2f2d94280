import Barrage.Proofs.Machine.TimedFrames
import Barrage.Proofs.Machine.TwinTurns

/-!
# Runs that go abreast to their ends

Two runs whose tasks differ in their expressions take the same turns in every frame, generation by generation, since as
many tasks are spawned in one as in the other. So they stay abreast from frame to frame, and one of them has an answer
in the frame in which the other has one. The condition on the timers is about the deeds up to that frame.

## Main definitions

* `Machine.recordToEnd` — the deeds of a run up to the frame in which it has an answer
* `Machine.Paired` — runs before a frame that go abreast

## Main results

* `Machine.Paired.tick` — a frame of both runs
* `Machine.Paired.runToEnd` — both runs have answers that are alike, in the same frame
-/

namespace Barrage

/-- What is left of a task in both runs. -/
theorem Turn.Twin.left {base : Hosts} {turn turn' : Turn Activity} (h : turn.Twin base turn') :
    Option.Rel (Activity.Twin base) turn.left turn'.left := by
  cases h with
  | done => exact .none
  | waiting hrest => exact .some hrest

namespace Machine

variable {base : Hosts} {record : List Note} {p p' m m' : Machine} {tasks tasks' : List Activity}

/-- The deeds of a run up to the frame in which it has an answer, in so many frames at most. -/
def recordToEnd : (frames : Nat) → Machine → List Note
  | 0, _ => []
  | frames + 1, m => m.deeds ++ if m.tick.shared.outcome.isSome then [] else recordToEnd frames m.tick

/-- A task takes its turn in both runs. -/
theorem Abreast.taskTurn {a a' : Activity} (h : p.Abreast base record p') (ha : a.Twin base a')
    (hnames : NamesAtZero (record ++ a.notes p)) :
    Abreast base (record ++ a.notes p) (a.taskTurn.run p).2 (a'.taskTurn.run p').2 ∧
      Option.Rel (Activity.Twin base) (a.taskTurn.run p).1 (a'.taskTurn.run p').1 := by
  have hturns : LockstepTurn base record a.turn a'.turn := Activity.lockstep_turn ha
  obtain ⟨-, -, habreast⟩ := hturns [] p
  rw [List.append_nil] at habreast
  obtain ⟨hnext, hturn⟩ := habreast p' h hnames
  rw [Activity.run_taskTurn, Activity.run_taskTurn, step_eq_watch a]
  exact ⟨hnext, hturn.left⟩

/-- The tasks of two lists take their turns. -/
theorem Abreast.takeTurns (h : p.Abreast base record p') (htasks : List.Forall₂ (Activity.Twin base) tasks tasks')
    (hnames : NamesAtZero (record ++ (Scheduler.pollsOf Activity.taskTurn tasks p).flatMap Poll.deeds)) :
    Abreast base (record ++ (Scheduler.pollsOf Activity.taskTurn tasks p).flatMap Poll.deeds)
        ((Scheduler.takeTurns Activity.taskTurn tasks).run p).2
        ((Scheduler.takeTurns Activity.taskTurn tasks').run p').2 ∧
      List.Forall₂ (Activity.Twin base) ((Scheduler.takeTurns Activity.taskTurn tasks).run p).1
        ((Scheduler.takeTurns Activity.taskTurn tasks').run p').1 := by
  induction htasks generalizing record p p' with
  | nil =>
    rw [Scheduler.pollsOf, List.flatMap_nil, List.append_nil]
    exact ⟨h, .nil⟩
  | @cons a a' rest rest' ha hrest ih =>
    rw [Scheduler.pollsOf, List.flatMap_cons, ← List.append_assoc] at hnames ⊢
    obtain ⟨hnext, hleft⟩ := h.taskTurn ha (hnames.mono (List.prefix_append _ _))
    obtain ⟨hlast, hkept⟩ := ih hnext hnames
    rw [Scheduler.takeTurns_cons, Scheduler.takeTurns_cons]
    refine ⟨hlast, List.rel_append ?_ hkept⟩
    generalize (a.taskTurn.run p).1 = left, (a'.taskTurn.run p').1 = left' at hleft ⊢
    cases hleft with
    | none => exact .nil
    | some hleft => exact .cons hleft .nil

/-- The tasks that are spawned are taken out of both runs. -/
theorem Abreast.takeSpawned (h : p.Abreast base record p') :
    Abreast base record { p with spawned := [] } { p' with spawned := [] } :=
  ⟨h.clock, h.sources, .nil, h.shared⟩

/-- The generations of a frame. -/
theorem Abreast.generations (count : Nat) (h : p.Abreast base record p')
    (hnames : NamesAtZero (record ++ (Scheduler.pollsOfGenerations Activity.taskTurn count p).flatMap Poll.deeds)) :
    Abreast base (record ++ (Scheduler.pollsOfGenerations Activity.taskTurn count p).flatMap Poll.deeds)
        ((Scheduler.generations Activity.taskTurn count).run p).2
        ((Scheduler.generations Activity.taskTurn count).run p').2 ∧
      List.Forall₂ (Activity.Twin base) ((Scheduler.generations Activity.taskTurn count).run p).1
        ((Scheduler.generations Activity.taskTurn count).run p').1 := by
  induction count generalizing record p p' with
  | zero =>
    rw [Scheduler.pollsOfGenerations, List.flatMap_nil, List.append_nil]
    exact ⟨h, .nil⟩
  | succ count ih =>
    -- One run is out of generations when the other is.
    have hempty : p.spawned = [] ↔ p'.spawned = [] := by
      rw [← List.length_eq_zero_iff, ← List.length_eq_zero_iff, h.spawned.length_eq]
    by_cases hnil : p.spawned = []
    · rw [(Scheduler.generations_empty hnil).1, (Scheduler.generations_empty hnil).2,
        (Scheduler.generations_empty (hempty.1 hnil)).1, List.flatMap_nil, List.append_nil]
      exact ⟨h.takeSpawned, .nil⟩
    · obtain ⟨hrun, hpolls⟩ := Scheduler.generations_cons Activity.taskTurn count hnil
      obtain ⟨hrun', -⟩ := Scheduler.generations_cons Activity.taskTurn count (fun hnil' => hnil (hempty.2 hnil'))
      rw [hpolls, List.flatMap_append, ← List.append_assoc] at hnames ⊢
      rw [hrun, hrun']
      obtain ⟨hnext, hfresh⟩ := h.takeSpawned.takeTurns h.spawned (hnames.mono (List.prefix_append _ _))
      obtain ⟨hlast, hlater⟩ := ih hnext hnames
      exact ⟨hlast, List.rel_append hfresh hlater⟩

/-- Runs before a frame that go abreast. -/
structure Paired (base : Hosts) (record : List Note) (m m' : Machine) : Prop extends m.Abreast base record m' where
  tasks : List.Forall₂ (Activity.Twin base) m.tasks m'.tasks

/-- Both runs have as many generations at most. -/
theorem Paired.generationBound_eq (h : m.Paired base record m') :
    m'.generationBound Activity.rank = m.generationBound Activity.rank := by
  have hranks : ∀ {tasks tasks' : List Activity}, List.Forall₂ (Activity.Twin base) tasks tasks' →
      tasks'.map Activity.rank = tasks.map Activity.rank := by
    intro tasks tasks' htasks
    induction htasks with
    | nil => rfl
    | cons ha _ ih => rw [List.map_cons, List.map_cons, ha.rank_eq, ih]
  rw [Scheduler.generationBound, Scheduler.generationBound, hranks (List.rel_append h.tasks h.spawned)]

/-- A frame of both runs. -/
theorem Paired.tick (h : m.Paired base record m') (hnames : NamesAtZero (record ++ m.deeds)) :
    m.tick.Paired base (record ++ m.deeds) m'.tick := by
  have hrun (m : Machine) : m.tick =
      let live := (Scheduler.takeTurns Activity.taskTurn m.tasks).run m
      let fresh := (Scheduler.generations Activity.taskTurn (m.generationBound Activity.rank)).run live.2
      { fresh.2 with tasks := live.1 ++ fresh.1, clock := fresh.2.clock.tick } := rfl
  rw [deeds, polls, Scheduler.polls, List.flatMap_append, ← List.append_assoc] at hnames ⊢
  obtain ⟨hnext, hlive⟩ := h.toAbreast.takeTurns h.tasks (hnames.mono (List.prefix_append _ _))
  obtain ⟨hlast, hfresh⟩ := hnext.generations _ hnames
  rw [hrun, hrun, h.generationBound_eq]
  exact ⟨⟨congrArg FrameClock.tick hlast.clock, hlast.sources, hlast.spawned, hlast.shared⟩,
    List.rel_append hlive hfresh⟩

/-- Frames until the runs have answers. -/
theorem Paired.runUntil (frames : Nat) (h : m.Paired base record m')
    (hnames : NamesAtZero (record ++ m.recordToEnd frames)) :
    Option.Rel (AnswersAlike Eq) (Scheduler.runUntil Machine.tick (·.shared.outcome) frames m).1
        (Scheduler.runUntil Machine.tick (·.shared.outcome) frames m').1 ∧
      Paired base (record ++ m.recordToEnd frames) (Scheduler.runUntil Machine.tick (·.shared.outcome) frames m).2
        (Scheduler.runUntil Machine.tick (·.shared.outcome) frames m').2 := by
  induction frames generalizing record m m' with
  | zero =>
    rw [recordToEnd, List.append_nil]
    exact ⟨.none, h⟩
  | succ frames ih =>
    rw [recordToEnd, ← List.append_assoc] at hnames ⊢
    have hnext := h.tick (hnames.mono (List.prefix_append _ _))
    have houtcome := hnext.shared.outcome
    rw [Scheduler.runUntil, Scheduler.runUntil]
    generalize m.tick.shared.outcome = outcome, m'.tick.shared.outcome = outcome' at houtcome hnames ⊢
    -- Both runs have an answer after this frame, or neither has one.
    cases houtcome with
    | none =>
      exact ih hnext hnames
    | some hanswer =>
      rw [Option.isSome_some, if_pos rfl, List.append_nil]
      exact ⟨.some hanswer, hnext⟩

/-- If one run ends well, so does the other, and they end abreast. -/
theorem Paired.runToEnd (frames : Nat) (h : m.Paired base record m')
    (hnames : NamesAtZero (record ++ m.recordToEnd frames)) (hend : (m.runToEnd frames).1 = .ok (.ok ())) :
    (m'.runToEnd frames).1 = .ok (.ok ()) ∧
      Paired base (record ++ m.recordToEnd frames) (m.runToEnd frames).2 (m'.runToEnd frames).2 := by
  obtain ⟨hanswer, hlast⟩ := h.runUntil frames hnames
  unfold Machine.runToEnd at hend ⊢
  generalize Scheduler.runUntil Machine.tick (·.shared.outcome) frames m = run,
    Scheduler.runUntil Machine.tick (·.shared.outcome) frames m' = run' at hanswer hlast hend ⊢
  obtain ⟨answer, last⟩ := run
  obtain ⟨answer', last'⟩ := run'
  cases hanswer with
  | none => cases hend
  | some halike =>
    cases hend
    cases halike
    exact ⟨rfl, hlast⟩

end Machine

end Barrage
