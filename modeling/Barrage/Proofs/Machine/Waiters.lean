import Barrage.Proofs.Machine.Polling
import Barrage.Proofs.Machine.Waits

/-!
# Tasks that wait

A task in a wait spends its turns on polls. As long as these give no answer, what is left of the wait is all that
is left of the task but for what comes after; with the answer the task goes on in the same turn.

Tasks that are suspended waits compare frames in every poll. Routines and activities do not: a frame polls each of
them once, so for them the frame of the last poll is always over.

## Main definitions

* `Suspended.turn` — a turn of a task that is in a wait
* `Waiter` — a kind of task that waits
* `Suspended.waiter`, `Routine.waiter`, `Activity.waiter` — suspended waits, routines and activities are such

## Main results

* `Suspended.run_turn_of_some`, `Suspended.run_turn_of_none` — the turn in which the wait is over, and those before
-/

namespace Barrage

open Scheduler

section

variable {σ τ γ : Type}

/-- A turn of a task that is in a wait: a poll, and what comes next if the wait is over. -/
def Suspended.turn (holds : γ → SchedulerM σ τ (Except MachineError Bool)) (task : Suspended γ → τ)
    (next : Except MachineError Unit → SchedulerM σ τ (Option τ)) (s : Suspended γ) :
    SchedulerM σ τ (Option τ) := do
  match ← s.poll holds with
  | .done answer => next answer
  | .waiting rest => return some (task rest)

/-- A kind of task that waits. Its turns need to be polls only where nothing holds the wait up. -/
structure Waiter (turn : τ → SchedulerM σ τ (Option τ)) (γ : Type) where
  /-- How conditions are looked at. -/
  holds : γ → SchedulerM σ τ (Except MachineError Bool)
  /-- The task in a wait. -/
  task : Suspended γ → τ
  /-- What the task does with the answer of its wait. -/
  next : Except MachineError Unit → SchedulerM σ τ (Option τ)
  run_turn : ∀ (s : Suspended γ) (p : Scheduler σ τ), s.isReady p.clock →
    (turn (task s)).run p = (s.turn holds task next).run p

variable {holds : γ → SchedulerM σ τ (Except MachineError Bool)} {task : Suspended γ → τ}
  {next : Except MachineError Unit → SchedulerM σ τ (Option τ)} {s : Suspended γ} {p : Scheduler σ τ}

namespace Suspended

theorem run_turn (s : Suspended γ) (p : Scheduler σ τ) :
    (s.turn holds task next).run p =
      (match ((s.poll holds).run p).1 with
      | .done answer => next answer
      | .waiting rest => return some (task rest) : SchedulerM σ τ (Option τ)).run ((s.poll holds).run p).2 := rfl

/-- A task goes on with the answer of its wait in the same turn. -/
theorem run_turn_of_some {answer : Except MachineError Unit} (hready : s.isReady p.clock)
    (hanswer : s.wait.answer? holds p = some answer) :
    (s.turn holds task next).run p = (next answer).run (s.wait.polled holds p) := by
  rw [run_turn, run_poll_of_ready hready, hanswer]
  rfl

/-- What is left of a wait without an answer is held up by the rest of the frame. -/
theorem run_turn_of_none (hready : s.isReady p.clock) (hnone : s.wait.answer? holds p = none) :
    (s.turn holds task next).run p =
      (some (task ⟨s.wait.left 1, some ⟨(s.wait.polled holds p).clock.frame⟩⟩), s.wait.polled holds p) := by
  rw [run_turn, run_poll_of_ready hready, hnone]
  rfl

/-- A task that waits does no more to the clock and the queue than its condition and what comes next. -/
theorem adds_turn {S : τ → Prop} (hholds : ∀ condition, Adds S (holds condition))
    (hnext : ∀ answer, Adds S (next answer)) (s : Suspended γ) : Adds S (s.turn holds task next) := by
  have hresume : Adds S (s.resume holds) := by
    refine (Adds.wait hholds s.wait).bind fun turn => ?_
    cases turn with
    | done answer => exact .pure _
    | waiting rest => exact Adds.get.bind fun p => .pure _
  have hpoll : Adds S (s.poll holds) := by
    refine Adds.get.bind fun p => ?_
    split
    · exact hresume
    · exact .pure _
  refine hpoll.bind fun turn => ?_
  cases turn with
  | done answer => exact hnext answer
  | waiting rest => exact .pure _

end Suspended

end

/-- Tasks that are suspended waits and compare frames in every poll. -/
def Suspended.waiter {σ γ : Type} (holds : γ → SchedulerM σ (Suspended γ) (Except MachineError Bool))
    (next : Except MachineError Unit → SchedulerM σ (Suspended γ) (Option (Suspended γ))) :
    Waiter (Suspended.turn holds id next) γ :=
  ⟨holds, id, next, fun _ _ _ => rfl⟩

/-! ### Routines -/

namespace Routine

variable {α : Type}

/-- A routine that goes on has nothing to do any more with the wait that it was in. -/
theorem goOn_wait (r : Routine α) (wait : Option (Wait FrameCondition)) (steps : List (RoutineStep α)) :
    goOn { r with wait } steps = goOn r steps := by
  induction steps with
  | nil => rfl
  | cons step rest ih =>
    unfold goOn
    rw [ih]
    rfl

/-- A routine in a wait does its other steps afterwards. -/
def waiter (r : Routine α) : Waiter (turn (α := α)) FrameCondition where
  holds := holds
  task s := { r with wait := some s.wait }
  next
    | .ok () => goOn r r.steps
    | .error e => do
      r.settle (.error e)
      return none
  run_turn s p hready := by
    have hturn : (turn { r with wait := some s.wait }).run p =
        (match ((s.wait.poll holds).run p).1 with
        | .done (.ok ()) => goOn { r with wait := some s.wait } r.steps
        | .done (.error e) => do
          r.settle (.error e)
          return none
        | .waiting wait => return some { r with wait := some wait } : M α (Option (Routine α))).run
          ((s.wait.poll holds).run p).2 := rfl
    rw [hturn, Wait.run_poll, goOn_wait]
    cases hanswer : s.wait.answer? holds p with
    | none =>
      rw [Suspended.run_turn_of_none hready hanswer]
      rfl
    | some answer =>
      rw [Suspended.run_turn_of_some hready hanswer]
      cases answer <;> rfl

end Routine

/-! ### Activities -/

namespace Activity

/-- An activity and what follows when it is over, the next first. -/
def followedBy (nexts : List Continuation) (a : Activity) : Activity := nexts.foldl .andThen a

/-- What follows an activity that is over. -/
def goOn : List Continuation → AnswerStep (World.M Activity)
  | [], answer => return .done answer
  | next :: rest, answer => do
    match ← next.apply answer with
    | .done answer => goOn rest answer
    | .waiting a => return .waiting (a.followedBy rest)

theorem step_followedBy (nexts : List Continuation) (a : Activity) (p : Machine) :
    (a.followedBy nexts).step p =
      (match (a.step p).1 with
      | .done answer => goOn nexts answer
      | .waiting rest => return .waiting (rest.followedBy nexts) : Step (World.M Activity)).run (a.step p).2 := by
  induction nexts generalizing a with
  | nil =>
    change a.step p = _
    cases h : a.step p with
    | mk turn q => cases turn <;> rfl
  | cons next rest ih =>
    have hstep : (a.andThen next).step p =
        ((a.step p).1.followedBy next next.apply : Step (World.M Activity)).run (a.step p).2 := rfl
    have hcons : a.followedBy (next :: rest) = (a.andThen next).followedBy rest := rfl
    rw [hcons, ih, hstep]
    cases (a.step p).1 <;> rfl

/-- An activity in a wait goes on with what follows it. -/
def waiter (nexts : List Continuation) : Waiter taskTurn Callable where
  holds := Callable.holds
  task s := (wait s.wait).followedBy nexts
  next answer := do
    match ← goOn nexts answer with
    | .done _ => return none
    | .waiting rest => return some rest
  run_turn s p hready := by
    have hstep : (wait s.wait).step p =
        (((s.wait.poll Callable.holds).run p).1.map wait, ((s.wait.poll Callable.holds).run p).2) := rfl
    rw [run_taskTurn, step_followedBy, hstep, Wait.run_poll]
    cases hanswer : s.wait.answer? Callable.holds p with
    | none =>
      rw [Suspended.run_turn_of_none hready hanswer]
      rfl
    | some answer =>
      rw [Suspended.run_turn_of_some hready hanswer]
      let gone := (goOn nexts answer).run (s.wait.polled Callable.holds p)
      change (gone.1.left, gone.2) = (match gone.1 with
        | .done _ => pure none
        | .waiting rest => pure (some rest) : World.M Activity (Option Activity)).run gone.2
      cases gone.1 <;> rfl

end Activity

end Barrage
