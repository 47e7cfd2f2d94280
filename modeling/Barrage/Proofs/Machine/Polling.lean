import Barrage.Machine.Routine
import Barrage.Proofs.Machine.Frames

/-!
# A frame polls every task once

The tasks of a frame form a queue. Those that are alive when it begins are polled first, then those that
were spawned before it, and whatever a poll spawns goes to the back of the queue. A frame that ends has
polled the whole queue: every task once, generation by generation. What is left of each task is kept in
the order of the polls, and the frame is counted when all of them are over.

A poll may spawn as many tasks as it likes, and those may spawn again; that it does nothing else to the
queue and leaves the clock alone is all that is assumed. Whether a frame ends is another matter: it does
if no task spawns tasks of its own rank, as it is for routines and for activities.

## Main definitions

* `Scheduler.Spawns`, `Scheduler.Adds` — that the queue only grew and the clock stands still
* `Poll.spawns` — the tasks that a poll spawned
* `Scheduler.Generations` — polls of which each generation was spawned by the one before
* `Scheduler.Ended` — that a frame ends

## Main results

* `Scheduler.Ended.round` — the polls of a frame that ends are those of the loop without any bound
* `Scheduler.Round.exists_ended` — where the loop comes to an end, the frame does under some bound
* `Scheduler.Ended.generations` — they go generation by generation
* `Routine.ended`, `Machine.ended` — frames of routines and of activities end
* `Machine.tick_polls` — what a frame of a run polls, keeps and counts
* `Scheduler.tick_pollsOnce` — every task is polled once and in order, and nothing of it is lost
-/

namespace Barrage

namespace Scheduler

variable {σ τ : Type}

/-- The state moved on, but the clock stands still, and all that happened to the tasks that were not
polled yet is that some with a property were added. -/
structure Spawns (S : τ → Prop) (p q : Scheduler σ τ) : Prop where
  clock : q.clock = p.clock
  spawned : ∃ new, q.spawned = p.spawned ++ new ∧ ∀ t ∈ new, S t

namespace Spawns

variable {S S' : τ → Prop} {p q r : Scheduler σ τ}

theorem refl (p : Scheduler σ τ) : p.Spawns S p := ⟨rfl, [], by simp⟩

theorem trans (hpq : p.Spawns S q) (hqr : q.Spawns S r) : p.Spawns S r where
  clock := hqr.clock.trans hpq.clock
  spawned := by
    obtain ⟨new, hnew, hS⟩ := hpq.spawned
    obtain ⟨more, hmore, hS'⟩ := hqr.spawned
    refine ⟨new ++ more, by rw [hmore, hnew, List.append_assoc], fun t ht => ?_⟩
    exact (List.mem_append.1 ht).elim (hS t) (hS' t)

theorem mono (h : p.Spawns S q) (hS : ∀ t, S t → S' t) : p.Spawns S' q where
  clock := h.clock
  spawned := by
    obtain ⟨new, hnew, hnew'⟩ := h.spawned
    exact ⟨new, hnew, fun t ht => hS t (hnew' t ht)⟩

end Spawns

/-- A computation that does nothing to the clock and the queue but to add tasks with a property. -/
def Adds {α : Type} (S : τ → Prop) (x : SchedulerM σ τ α) : Prop :=
  ∀ p : Scheduler σ τ, p.Spawns S (x.run p).2

/-- Turns that do nothing to the clock and the queue but to add tasks. -/
def Spawning (turn : τ → SchedulerM σ τ (Option τ)) : Prop := ∀ task, Adds (fun _ => True) (turn task)

namespace Adds

variable {α β : Type} {S S' : τ → Prop} {x : SchedulerM σ τ α} {f : α → SchedulerM σ τ β}

theorem pure (a : α) : Adds S (Pure.pure a : SchedulerM σ τ α) := fun p => .refl p

theorem bind (hx : Adds S x) (hf : ∀ a, Adds S (f a)) : Adds S (x >>= f) :=
  fun p => (hx p).trans (hf (x.run p).1 (x.run p).2)

theorem mono (h : Adds S x) (hS : ∀ t, S t → S' t) : Adds S' x := fun p => (h p).mono hS

theorem get : Adds S (MonadState.get : SchedulerM σ τ (Scheduler σ τ)) := fun p => .refl p

theorem update (f : σ → σ) : Adds (τ := τ) S (Scheduler.update f) :=
  fun _ => ⟨rfl, [], (List.append_nil _).symm, by simp⟩

theorem cancel (source : Nat) : Adds (σ := σ) S (Scheduler.cancel source) :=
  fun _ => ⟨rfl, [], (List.append_nil _).symm, by simp⟩

theorem spawn {task : τ} (h : S task) : Adds (σ := σ) S (Scheduler.spawn task) :=
  fun _ => ⟨rfl, [task], rfl, by simpa using h⟩

/-- A wait does what looking at its condition does. -/
theorem wait {γ : Type} {holds : γ → SchedulerM σ τ (Except MachineError Bool)}
    (hholds : ∀ condition, Adds S (holds condition)) (wait : Wait γ) :
    Adds S (wait.turn Scheduler.isCancelled holds) := by
  refine (Adds.get.bind fun p => .pure _).bind fun cancelled => ?_
  split
  · exact .pure _
  · cases wait with
    | frames left token => cases left <;> exact .pure _
    | «until» condition token =>
      refine (hholds condition).bind fun answer => ?_
      split <;> exact .pure _
    | cancelled token => exact .pure _

end Adds

end Scheduler

/-- The tasks that a poll spawned. -/
def Poll.spawns {σ τ : Type} (turn : τ → SchedulerM σ τ (Option τ)) (poll : Poll σ τ) : List τ :=
  (poll.after turn).spawned.drop poll.before.spawned.length

namespace Scheduler

variable {σ τ : Type} {turn : τ → SchedulerM σ τ (Option τ)} {rank : τ → Nat} {s : Scheduler σ τ}

theorem Spawning.spawned_after (h : Spawning turn) (poll : Poll σ τ) :
    (poll.after turn).spawned = poll.before.spawned ++ poll.spawns turn := by
  obtain ⟨new, hnew, -⟩ := (h poll.task poll.before).spawned
  have hafter : (poll.after turn).spawned = poll.before.spawned ++ new := hnew
  rw [Poll.spawns, hafter, List.drop_left]

/-- Behind the turns of a list wait the tasks that waited before, and then those that the turns spawned. -/
theorem Spawning.spawned_takeTurns (h : Spawning turn) (tasks : List τ) (s : Scheduler σ τ) :
    ((takeTurns turn tasks).run s).2.spawned =
      s.spawned ++ (pollsOf turn tasks s).flatMap (Poll.spawns turn) := by
  induction tasks generalizing s with
  | nil => exact (List.append_nil _).symm
  | cons task rest ih =>
    have hfirst := h.spawned_after ⟨task, s⟩
    rw [takeTurns_cons, ih, pollsOf, List.flatMap_cons, ← List.append_assoc, ← hfirst]
    rfl

/-- Polls in generations: the tasks of each are those that the one before it spawned, and the last one
spawned none. -/
inductive Generations (turn : τ → SchedulerM σ τ (Option τ)) : List τ → List (Poll σ τ) → Prop
  | nil : Generations turn [] []
  | cons {fresh : List τ} {polls later : List (Poll σ τ)} (hfresh : fresh ≠ [])
    (hpolls : polls.map Poll.task = fresh) (hlater : Generations turn (polls.flatMap (Poll.spawns turn)) later) :
    Generations turn fresh (polls ++ later)

/-- In generations every task is polled once, in the order of spawning. -/
theorem Generations.map_task {fresh : List τ} {polls : List (Poll σ τ)} (h : Generations turn fresh polls) :
    polls.map Poll.task = fresh ++ polls.flatMap (Poll.spawns turn) := by
  induction h with
  | nil => rfl
  | cons _ hpolls _ ih =>
    rw [List.map_append, List.flatMap_append, hpolls, ih]

/-- A frame that ends: no task is left that was not polled. The loop of a frame goes on as long as there is
one, so a frame that was cut off at its bound is none that ends. -/
def Ended (turn : τ → SchedulerM σ τ (Option τ)) (rank : τ → Nat) (s : Scheduler σ τ) : Prop :=
  ((tick turn rank).run s).2.spawned = []

/-- Generations that end are the generations of the loop. -/
theorem Spawning.generations (h : Spawning turn) (count : Nat) (s : Scheduler σ τ)
    (hend : ((Scheduler.generations turn count).run s).2.spawned = []) :
    Generations turn s.spawned (pollsOfGenerations turn count s) := by
  induction count generalizing s with
  | zero =>
    have hnil : s.spawned = [] := hend
    rw [hnil]
    exact .nil
  | succ count ih =>
    by_cases hnil : s.spawned = []
    · rw [(generations_empty hnil).2, hnil]
      exact .nil
    · obtain ⟨hrun, hpolls⟩ := generations_cons turn count hnil
      rw [hrun] at hend
      have hlater := ih _ hend
      rw [h.spawned_takeTurns] at hlater
      rw [hpolls]
      exact .cons hnil (pollsOf_tasks _ _) hlater

/-- Turns of a list, taken when those before them are over. -/
theorem Round.turns {tasks rest : List τ} {done : List (Poll σ τ)} {p : Scheduler σ τ}
    (h : Round turn s done (tasks ++ rest) p) :
    Round turn s (done ++ pollsOf turn tasks p) rest ((takeTurns turn tasks).run p).2 := by
  induction tasks generalizing done p with
  | nil =>
    rw [pollsOf, List.append_nil]
    exact h
  | cons task tasks ih =>
    have hrest := ih h.turn
    rwa [List.append_assoc] at hrest

theorem with_spawned_nil {p : Scheduler σ τ} (h : p.spawned = []) :
    ({ p with spawned := [] } : Scheduler σ τ) = p := by
  cases p
  simp_all

/-- Generations that end lead to the end of the loop. -/
theorem Round.generations {count : Nat} {done : List (Poll σ τ)} {p : Scheduler σ τ}
    (h : Round turn s done [] p) (hend : ((Scheduler.generations turn count).run p).2.spawned = []) :
    Round turn s (done ++ pollsOfGenerations turn count p) []
      ((Scheduler.generations turn count).run p).2 := by
  induction count generalizing done p with
  | zero =>
    rw [pollsOfGenerations, List.append_nil]
    exact h
  | succ count ih =>
    by_cases hnil : p.spawned = []
    · rw [(generations_empty hnil).1, (generations_empty hnil).2, List.append_nil,
        with_spawned_nil hnil]
      exact h
    · obtain ⟨hrun, hpolls⟩ := generations_cons turn count hnil
      rw [hrun] at hend ⊢
      have hturns : Round turn s (done ++ pollsOf turn p.spawned { p with spawned := [] }) []
          ((takeTurns turn p.spawned).run { p with spawned := [] }).2 :=
        Round.turns (by rw [List.append_nil]; exact .fresh h hnil)
      rw [hpolls, ← List.append_assoc]
      exact ih hturns hend

/-- The clock stands still while tasks are polled. -/
theorem Round.clock (hspawn : Spawning turn) {done : List (Poll σ τ)} {rest : List τ}
    {p : Scheduler σ τ} (h : Round turn s done rest p) :
    p.clock = s.clock ∧ ∀ poll ∈ done, poll.before.clock = s.clock := by
  induction h with
  | start => exact ⟨rfl, by simp⟩
  | @turn done task rest p _ ih =>
    refine ⟨(hspawn task p).clock.trans ih.1, fun poll hpoll => ?_⟩
    rcases List.mem_append.1 hpoll with hpoll | hpoll
    · exact ih.2 poll hpoll
    · rw [List.mem_singleton.1 hpoll]
      exact ih.1
  | fresh _ _ ih => exact ih

/-- More generations than a frame has change nothing. -/
theorem generations_of_le {count count' : Nat} {p : Scheduler σ τ} (hle : count ≤ count')
    (hend : ((Scheduler.generations turn count).run p).2.spawned = []) :
    (Scheduler.generations turn count').run p = (Scheduler.generations turn count).run p ∧
      pollsOfGenerations turn count' p = pollsOfGenerations turn count p := by
  -- As long as something is spawned both counts go down; from then on neither does anything.
  induction count generalizing count' p with
  | zero =>
    have hnil : p.spawned = [] := hend
    cases count' with
    | zero => exact ⟨rfl, rfl⟩
    | succ count' =>
      rw [(generations_empty hnil).1, (generations_empty hnil).2, with_spawned_nil hnil]
      exact ⟨rfl, rfl⟩
  | succ count ih =>
    cases count' with
    | zero => exact absurd hle (Nat.not_succ_le_zero count)
    | succ count' =>
      by_cases hnil : p.spawned = []
      · simp only [(generations_empty hnil).1, (generations_empty hnil).2, and_self]
      · obtain ⟨hrun, hpolls⟩ := generations_cons turn count hnil
        obtain ⟨hrun', hpolls'⟩ := generations_cons turn count' hnil
        rw [hrun] at hend
        obtain ⟨hlater, hlaterPolls⟩ := ih (Nat.le_of_succ_le_succ hle) hend
        rw [hrun, hrun', hpolls, hpolls', hlaterPolls]
        exact ⟨by simp only [hlater], rfl⟩

/-- What a frame that ends does does not depend on how many generations it could have had. -/
theorem Ended.generations_eq {rank' : τ → Nat} (h : Ended turn rank s) (h' : Ended turn rank' s) :
    let p := ((takeTurns turn s.tasks).run s).2
    (Scheduler.generations turn (s.generationBound rank')).run p =
        (Scheduler.generations turn (s.generationBound rank)).run p ∧
      pollsOfGenerations turn (s.generationBound rank') p =
        pollsOfGenerations turn (s.generationBound rank) p := by
  -- The frame ends within the smaller bound, so the greater one adds nothing.
  rcases Nat.le_total (s.generationBound rank) (s.generationBound rank') with hle | hle
  · exact generations_of_le hle h
  · obtain ⟨hrun, hpolls⟩ := generations_of_le hle h'
    exact ⟨hrun.symm, hpolls.symm⟩

/-- The polls of a frame that ends are those of the loop, which has no bound. -/
theorem Ended.round (h : Ended turn rank s) :
    ∃ last, Round turn s (s.polls turn rank) [] last ∧ last.spawned = [] ∧
      ((tick turn rank).run s).2 =
        { last with tasks := (s.polls turn rank).filterMap (Poll.kept turn), clock := last.clock.tick } := by
  have hturns : Round turn s ([] ++ pollsOf turn s.tasks s) [] ((takeTurns turn s.tasks).run s).2 :=
    Round.turns (by rw [List.append_nil]; exact .start)
  exact ⟨_, hturns.generations h, h, by rw [← tick_tasks]; exact tick_eq s⟩

/-- A frame that ends polls the tasks that are alive, and then generation after generation. -/
theorem Ended.generations (h : Ended turn rank s) (hspawn : Spawning turn) :
    ∃ live later, s.polls turn rank = live ++ later ∧ live.map Poll.task = s.tasks ∧
      Generations turn (s.spawned ++ live.flatMap (Poll.spawns turn)) later := by
  refine ⟨_, _, rfl, pollsOf_tasks _ _, ?_⟩
  rw [← hspawn.spawned_takeTurns]
  exact hspawn.generations _ _ h

/-- The loop of a frame that comes to an end does so within some number of generations. -/
theorem Round.exists_generations {count : Nat} {done : List (Poll σ τ)} {rest : List τ}
    {p : Scheduler σ τ} (h : Round turn s done rest p)
    (hend : ((Scheduler.generations turn count).run ((takeTurns turn rest).run p).2).2.spawned = []) :
    ∃ count', ((Scheduler.generations turn count').run
      ((takeTurns turn s.tasks).run s).2).2.spawned = [] := by
  -- Seen from its end, the loop counts one more generation wherever it starts a fresh one.
  induction h generalizing count with
  | start => exact ⟨count, hend⟩
  | turn _ ih => exact ih hend
  | @fresh done p _ hspawned ih =>
    have hnext := congrArg (fun run => run.2.spawned) (generations_cons turn count hspawned).1
    exact ih (hnext.trans hend)

/-- A frame of the loop that comes to an end is one for some ranks of the tasks. -/
theorem Round.exists_ended {done : List (Poll σ τ)} {last : Scheduler σ τ}
    (h : Round turn s done [] last) (hlast : last.spawned = []) : ∃ rank, Ended turn rank s := by
  have hend : ((Scheduler.generations turn 0).run ((takeTurns turn []).run last).2).2.spawned = [] := hlast
  obtain ⟨count, hcount⟩ := h.exists_generations hend
  have hended {rank : τ → Nat} {count : Nat} (hle : count ≤ s.generationBound rank)
      (hcount : ((Scheduler.generations turn count).run ((takeTurns turn s.tasks).run s).2).2.spawned = []) :
      Ended turn rank s := by
    have hmore := congrArg (fun run => run.2.spawned) (generations_of_le hle hcount).1
    exact hmore.trans hcount
  -- Ranks matter through the bound alone. If all are the count, the bound exceeds it unless no task is left.
  refine ⟨fun _ => count, ?_⟩
  by_cases hnone : s.tasks ++ s.spawned = []
  · obtain ⟨htasks, hspawned⟩ := List.append_eq_nil_iff.1 hnone
    exact hended (Nat.zero_le _) (by rw [htasks]; exact hspawned)
  · obtain ⟨t, ht⟩ := List.exists_mem_of_ne_nil _ hnone
    exact hended (Nat.le_of_lt (rank_lt_generationBound (fun _ => count) s t ht)) hcount

/-- A frame that ends polls the queue: the tasks that are alive, those that were spawned before it, and those
that the polls spawn, in this order. -/
theorem Ended.map_task (h : Ended turn rank s) (hspawn : Spawning turn) :
    (s.polls turn rank).map Poll.task =
      s.tasks ++ (s.spawned ++ (s.polls turn rank).flatMap (Poll.spawns turn)) := by
  obtain ⟨live, later, hpolls, hlive, hlater⟩ := h.generations hspawn
  rw [hpolls, List.map_append, hlive, hlater.map_task, List.flatMap_append]
  simp only [List.append_assoc]

/-- A frame ends if every task spawns tasks of lower ranks only. -/
theorem Descending.ended (h : Descending turn rank) (s : Scheduler σ τ) : Ended turn rank s := by
  obtain ⟨last, -, hlast, htick⟩ := tick_rule (I := fun _ _ _ => True) h (s := s)
    (fun _ _ _ _ _ => trivial) (fun _ _ _ => trivial) trivial
  rw [Ended, htick]
  exact hlast

end Scheduler

/-! ### Routines and activities -/

namespace Routine

open Scheduler

variable {α : Type} {S : Routine α → Prop}

theorem adds_note (name : String) (what : JournalNote α) : Adds S (note name what) :=
  Adds.get.bind fun _ => .update _

theorem adds_settle (r : Routine α) (answer : Except MachineError Unit) : Adds S (r.settle answer) := by
  unfold settle
  split
  · exact adds_note _ _
  · split
    · exact adds_note _ _
    · exact .pure _
  · exact .update _

theorem adds_holds (condition : FrameCondition) : Adds S (holds condition : M α _) := by
  refine Adds.get.bind fun p => ?_
  split
  · exact .pure _
  · split <;> exact .pure _

theorem adds_waitOf? (token : CancelToken) (step : RoutineStep α) : Adds S (waitOf? token step) := by
  cases step with
  | seconds duration => exact (Adds.get.bind fun p => .pure _).bind fun _ => .pure _
  | _ => exact .pure _

theorem adds_act (name : String) (step : RoutineStep α) :
    Adds (fun t => t.rank < stepRank step) (act name step) := by
  cases step with
  | cancel source => exact .cancel source
  | log entry => exact adds_note _ _
  | spawn name token steps => exact .spawn (Nat.lt_succ_self _)
  | _ => exact .pure _

theorem adds_goOn (r : Routine α) (steps : List (RoutineStep α)) :
    Adds (fun t => t.rank < stepsRank steps) (r.goOn steps) := by
  -- The rank of some steps is the greatest of theirs, so each of them spawns below it.
  induction steps with
  | nil => exact (adds_settle r _).bind fun _ => .pure _
  | cons step rest ih =>
    have hrest : Adds (fun t => t.rank < stepsRank (step :: rest)) (r.goOn rest) :=
      ih.mono fun t ht => Nat.lt_of_lt_of_le ht (Nat.le_max_right _ _)
    refine (adds_waitOf? _ _).bind fun wait => ?_
    cases wait with
    | none =>
      exact ((adds_act r.name step).mono fun t ht => Nat.lt_of_lt_of_le ht (Nat.le_max_left _ _)).bind
        fun _ => hrest
    | some wait =>
      refine (Adds.wait adds_holds wait).bind fun turn => ?_
      split
      · exact hrest
      · exact (adds_settle r _).bind fun _ => .pure _
      · exact .pure _

/-- A routine spawns routines with shorter chains of others only. -/
theorem adds_turn (r : Routine α) : Adds (fun t => t.rank < r.rank) r.turn := by
  unfold turn
  split
  · exact adds_goOn r r.steps
  · refine (Adds.wait adds_holds _).bind fun turn => ?_
    split
    · exact adds_goOn r r.steps
    · exact (adds_settle r _).bind fun _ => .pure _
    · exact .pure _

theorem spawning : Spawning (turn (α := α)) := fun r => (adds_turn r).mono fun _ _ => trivial

/-- Every frame of routines ends. -/
theorem ended (s : Scheduler (Journal α) (Routine α)) : Ended turn rank s :=
  Descending.ended (fun r p => (adds_turn r p).spawned) s

end Routine

/-- Activities do nothing to the clock and the queue but to add tasks. -/
theorem Activity.spawning : Scheduler.Spawning Activity.taskTurn := by
  intro a p
  rw [Activity.run_taskTurn]
  have hadvances := a.step_advances p
  obtain ⟨new, hnew, -⟩ := hadvances.spawned
  exact ⟨hadvances.clock, new, hnew, fun _ _ => trivial⟩

namespace Machine

/-- Every frame of a run ends. -/
theorem ended (m : Machine) : Scheduler.Ended Activity.taskTurn Activity.rank m :=
  Activity.descending.ended m

/-- A frame of a run polls every activity once, keeps what is left of them in their order, and is counted
then. -/
theorem tick_polls (m : Machine) :
    m.polls.map Poll.task = m.tasks ++ (m.spawned ++ m.polls.flatMap (Poll.spawns Activity.taskTurn)) ∧
      m.tick.tasks = m.polls.filterMap Poll.kept ∧ m.tick.spawned = [] ∧ m.tick.clock = m.clock.tick := by
  refine ⟨m.ended.map_task Activity.spawning, Scheduler.tick_tasks m, m.ended, ?_⟩
  obtain ⟨last, hround, -, htick⟩ := m.ended.round
  rw [Machine.tick, htick, (hround.clock Activity.spawning).1]

end Machine

namespace Scheduler

variable {σ τ : Type} {turn : τ → SchedulerM σ τ (Option τ)} {rank : τ → Nat} {s : Scheduler σ τ}

/-- A frame that ends polls every task once. The tasks that are alive come first, then generation after
generation of those that were spawned, in the order in which they were spawned. The polls are those of the
loop from its start to its end. What is left of the tasks is kept in the order of the polls, the clock
stands still meanwhile, and the frame is counted after all of them. A greater bound on the generations
changes nothing. -/
theorem tick_pollsOnce (hspawn : Spawning turn) (hend : Ended turn rank s) :
    let polls := s.polls turn rank
    let after := ((tick turn rank).run s).2
    (∃ live later, polls = live ++ later ∧ live.map Poll.task = s.tasks ∧
      Generations turn (s.spawned ++ live.flatMap (Poll.spawns turn)) later) ∧
    polls.map Poll.task = s.tasks ++ (s.spawned ++ polls.flatMap (Poll.spawns turn)) ∧
    (∃ last, Round turn s polls [] last ∧ last.spawned = [] ∧
      after = { last with tasks := polls.filterMap (Poll.kept turn), clock := s.clock.tick }) ∧
    (∀ poll ∈ polls, poll.before.clock = s.clock ∧ (poll.after turn).clock = s.clock) ∧
    after.clock.frame = s.clock.frame + 1 ∧
    ∀ rank', Ended turn rank' s →
      s.polls turn rank' = polls ∧ ((tick turn rank').run s).2 = after := by
  intro polls after
  obtain ⟨last, hround, hlast, hafter⟩ := hend.round
  obtain ⟨hclock, hclocks⟩ := hround.clock hspawn
  rw [hclock] at hafter
  refine ⟨hend.generations hspawn, hend.map_task hspawn, ⟨last, hround, hlast, hafter⟩,
    fun poll hpoll => ⟨hclocks poll hpoll, ?_⟩, ?_, fun rank' hend' => ?_⟩
  · exact (hspawn poll.task poll.before).clock.trans (hclocks poll hpoll)
  · exact congrArg (fun p => p.clock.frame) hafter
  · obtain ⟨hrun, hlaterPolls⟩ := hend.generations_eq hend'
    have hpolls : s.polls turn rank' = s.polls turn rank := by
      rw [Scheduler.polls, hlaterPolls, Scheduler.polls]
    refine ⟨hpolls, ?_⟩
    have hleft := @tick_eq σ τ turn rank' s
    have hright := @tick_eq σ τ turn rank s
    rw [tick_tasks] at hleft hright
    change ((tick turn rank').run s).2 = ((tick turn rank).run s).2
    rw [hleft, hright, hpolls]
    simp only [hrun]

/-- A routine that is alive, one that waits for its first turn, and two generations that the first one
spawns. -/
theorem tick_pollsOnce_nested :
    let routine (name : String) (steps : List (RoutineStep Nat)) : Routine Nat :=
      { name, token := .none, onEnd := .logged, steps }
    let s : Scheduler (Journal Nat) (Routine Nat) :=
      { clock := ⟨0.1, 7⟩
        tasks := [routine "alive" [.spawn "child" .none [.spawn "grandchild" .none [.log 3]], .nextFrame]]
        spawned := [routine "waiting" [.nextFrame]]
        shared := {} }
    let polls := s.polls Routine.turn Routine.rank
    let after := ((tick Routine.turn Routine.rank).run s).2
    Spawning (Routine.turn (α := Nat)) ∧ Ended Routine.turn Routine.rank s ∧
      polls.map Poll.task = s.tasks ++ (s.spawned ++ polls.flatMap (Poll.spawns Routine.turn)) ∧
      polls.map (·.task.name) = ["alive", "waiting", "child", "grandchild"] ∧
      after.tasks.map (·.name) = ["alive", "waiting"] ∧ after.clock.frame = 8 := by
  intro routine s polls after
  obtain ⟨-, hqueue, -, -, hframe, -⟩ := tick_pollsOnce Routine.spawning (Routine.ended s)
  exact ⟨Routine.spawning, Routine.ended s, hqueue, rfl, rfl, hframe⟩

end Scheduler

end Barrage
