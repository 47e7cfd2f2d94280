import Barrage.Proofs.Machine.Polling

/-!
# Following a task

A scheduler goes from frame to frame. Between two of them others may do what they like to its sources, to
what the tasks share and to those that were spawned; only the clock and the tasks that are alive are the
frame's own. In such a run one task can be followed: as long as it is not finished, what is left of it has a
place among the tasks of the next frame and takes its turn there.

## Main definitions

* `Scheduler.Run` — a scheduler just before each of its frames
* `Scheduler.Run.follow` — the turns of one task, frame by frame
* `Machine.run` — runs of activities, with what others do between the frames

## Main results

* `Scheduler.Run.follow_frame` — the turn with some number is taken in the frame with this number
* `Scheduler.Run.follow_succ` — a task that is not finished takes its next turn in the next frame
* `Machine.follow_run` — in runs of activities the turns are the same as those found by `Machine.follow`
-/

namespace Barrage

namespace Scheduler

variable {σ τ : Type} {turn : τ → SchedulerM σ τ (Option τ)} {rank : τ → Nat} {s : Scheduler σ τ}

/-- Turns that leave the clock alone do so for a whole frame, at the end of which it is counted. -/
theorem Spawning.clock (h : Spawning turn) (rank : τ → Nat) (s : Scheduler σ τ) :
    (∀ poll ∈ s.polls turn rank, poll.before.clock = s.clock) ∧
      ((tick turn rank).run s).2.clock = s.clock.tick := by
  obtain ⟨-, last, hmem, hlast, htick⟩ :=
    polls_pairwise rank (R := fun p q => q.clock = p.clock) (fun _ => rfl)
      (fun _ _ _ hpq hqr => hqr.trans hpq) (fun task p => (h task p).clock) (fun _ => rfl) s
  exact ⟨fun poll hpoll => (hmem poll hpoll).1, by rw [htick, hlast]⟩

/-- A scheduler just before each of its frames. What happens between them is left open, but for the clock and
the tasks that are alive. -/
structure Run (turn : τ → SchedulerM σ τ (Option τ)) (rank : τ → Nat) where
  state : Nat → Scheduler σ τ
  clock : ∀ n, (state (n + 1)).clock = ((tick turn rank).run (state n)).2.clock
  tasks : ∀ n, (state (n + 1)).tasks = ((tick turn rank).run (state n)).2.tasks

namespace Run

/-- The run in which others change the sources before each frame but the first. -/
def ofChanges (change : Nat → Sources → Sources) (s : Scheduler σ τ) : Run turn rank where
  state n := n.rec s fun n s =>
    let next := ((tick turn rank).run s).2
    { next with sources := change (n + 1) next.sources }
  clock _ := rfl
  tasks _ := rfl

variable (R : Run turn rank)

/-- The turns of a frame. -/
def polls (n : Nat) : List (Poll σ τ) := (R.state n).polls turn rank

/-- The place at which a task takes its turn, frame by frame, as long as it is not finished. -/
def place (start : Nat) : Nat → Option Nat
  | 0 => some start
  | n + 1 => do
    let here ← place start n
    let poll ← (R.polls n)[here]?
    let _ ← poll.kept turn
    some (((R.polls n).take here).filterMap (Poll.kept turn)).length

/-- The turns of a task, frame by frame, given the place at which it takes the first of them. -/
def follow (start n : Nat) : Option (Poll σ τ) := do
  (R.polls n)[← R.place start n]?

variable {R} {start n : Nat} {poll : Poll σ τ}

theorem follow_eq_some_iff :
    R.follow start n = some poll ↔ ∃ here, R.place start n = some here ∧ (R.polls n)[here]? = some poll :=
  Option.bind_eq_some_iff

theorem clock_state (h : Spawning turn) (n : Nat) :
    (R.state n).clock = { (R.state 0).clock with frame := (R.state 0).clock.frame + n } := by
  induction n with
  | zero => rfl
  | succ n ih =>
    rw [R.clock, (h.clock rank _).2, ih]
    rfl

/-- The turn with some number is taken in the frame with this number. -/
theorem follow_frame (h : Spawning turn) (hpoll : R.follow start n = some poll) :
    poll.before.clock.frame = (R.state 0).clock.frame + n := by
  obtain ⟨here, -, hpoll⟩ := follow_eq_some_iff.1 hpoll
  rw [(h.clock rank _).1 poll (List.mem_of_getElem? hpoll), clock_state h n]

/-- A task that is not finished takes its next turn in the next frame. -/
theorem follow_succ {left : τ} (h : R.follow start n = some poll) (hleft : poll.kept turn = some left) :
    ∃ next, R.follow start (n + 1) = some next ∧ next.task = left := by
  obtain ⟨here, hplace, hpoll⟩ := follow_eq_some_iff.1 h
  have htasks : (R.state (n + 1)).tasks[((R.polls n).take here |>.filterMap (Poll.kept turn)).length]? =
      some left := by
    rw [R.tasks, tick_tasks]
    exact filterMap_getElem? hpoll hleft
  obtain ⟨next, hnext, htask⟩ := polls_getElem? rank htasks
  refine ⟨next, follow_eq_some_iff.2 ⟨_, ?_, hnext⟩, htask⟩
  simp only [place, hplace, Option.bind_eq_bind, Option.bind_some]
  rw [hpoll, Option.bind_some, hleft]
  rfl

end Run

end Scheduler

namespace Machine

variable (acts : Nat → List Outside) (dt : Float) (m : Machine)

/-- A run of activities on which others act between the frames. -/
def run : Scheduler.Run Activity.taskTurn Activity.rank where
  state := states acts dt m
  clock _ := (acted_keeps _ _).1
  tasks _ := (acted_keeps _ _).2.1

theorem follow_run (start n : Nat) : (run acts dt m).follow start n = follow acts dt m start n := by
  have hplace : (run acts dt m).place start n = place acts dt m start n := by
    induction n with
    | zero => rfl
    | succ n ih =>
      rw [Scheduler.Run.place, ih]
      rfl
  rw [Scheduler.Run.follow, hplace]
  rfl

end Machine

end Barrage
