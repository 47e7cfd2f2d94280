import Barrage.Machine.Cancel
import Barrage.Machine.Clock
import Barrage.Machine.Error

/-!
# The scheduler

Tasks take turns: in every frame each task that is alive takes one turn, in the order of the list, and
then those that were spawned meanwhile take theirs, generation by generation. A task that is not finished
after its turn is kept for the next frame. All else that tasks share is a part of the state.

What a task is does not matter here. A task has a rank, and the tasks that it spawns have a lower one, so
that a frame cannot go on spawning for ever.

## Main definitions

* `Scheduler`, `SchedulerM`: the state, and computations of a turn
* `Scheduler.takeTurns`, `Scheduler.generations`: one turn for every task of a list, and for all that were
  spawned
* `Scheduler.tick`: a frame
* `Scheduler.runUntil`: frames until something holds
-/

namespace Barrage

/-- Clock, sources and tasks, with whatever the tasks share. -/
structure Scheduler (σ τ : Type) where
  clock : FrameClock
  sources : Sources := {}
  /-- The tasks that have taken a turn and go on in the next frame. -/
  tasks : List τ := []
  /-- The tasks that have not taken a turn yet. -/
  spawned : List τ := []
  shared : σ

/-- A computation that takes part in a turn. -/
abbrev SchedulerM (σ τ : Type) := StateM (Scheduler σ τ)

namespace Scheduler

variable {σ τ : Type}

/-- How many tasks are not finished. -/
def pending (s : Scheduler σ τ) : Nat := s.tasks.length + s.spawned.length

/-- Adds a task. -/
def spawn (task : τ) : SchedulerM σ τ Unit :=
  modify fun s => { s with spawned := s.spawned ++ [task] }

/-- Takes out the tasks that were spawned. -/
def takeSpawned : SchedulerM σ τ (List τ) :=
  modifyGet fun s => (s.spawned, { s with spawned := [] })

/-- Makes a source. -/
def makeSource : SchedulerM σ τ Nat :=
  modifyGet fun s =>
    let (source, sources) := s.sources.make
    (source, { s with sources })

/-- Cancels a source. -/
def cancel (source : Nat) : SchedulerM σ τ Unit :=
  modify fun s => { s with sources := s.sources.cancel source }

/-- Ends a source because its time is up. -/
def expire (source : Nat) : SchedulerM σ τ Unit :=
  modify fun s => { s with sources := s.sources.expire source }

/-- Whether a token is cancelled. -/
def isCancelled (token : CancelToken) : SchedulerM σ τ Bool :=
  return token.isCancelled (← get).sources

/-- Changes what the tasks share. -/
def update (f : σ → σ) : SchedulerM σ τ Unit := modify fun s => { s with shared := f s.shared }

/-- How many frames a duration takes. -/
def framesFor (seconds : Float) : SchedulerM σ τ Nat := return (← get).clock.framesFor seconds

/-- Every task of a list takes its turn; those that are not finished are kept in their order. -/
def takeTurns (turn : τ → SchedulerM σ τ (Option τ)) : List τ → SchedulerM σ τ (List τ)
  | [] => return []
  | task :: rest => do
    let kept ← turn task
    return kept.toList ++ (← takeTurns turn rest)

/-- The spawned tasks take their first turn, then those that they spawned, for so many generations. -/
def generations (turn : τ → SchedulerM σ τ (Option τ)) : (count : Nat) → SchedulerM σ τ (List τ)
  | 0 => return []
  | count + 1 => do
    match ← takeSpawned with
    | [] => return []
    | fresh => return (← takeTurns turn fresh) ++ (← generations turn count)

/-- How many generations a frame can have. -/
def generationBound (rank : τ → Nat) (s : Scheduler σ τ) : Nat :=
  ((s.tasks ++ s.spawned).map rank).foldl max 0 + 1

/-- A frame. -/
def tick (turn : τ → SchedulerM σ τ (Option τ)) (rank : τ → Nat) : SchedulerM σ τ Unit := do
  let before ← get
  let live ← takeTurns turn before.tasks
  let fresh ← generations turn (before.generationBound rank)
  modify fun s => { s with tasks := live ++ fresh, clock := s.clock.tick }

/-- Frames until something is found in the state, at most so many. -/
def runUntil {α : Type} (step : Scheduler σ τ → Scheduler σ τ) (find? : Scheduler σ τ → Option α) :
    (frames : Nat) → Scheduler σ τ → Option α × Scheduler σ τ
  | 0, s => (none, s)
  | frames + 1, s =>
    let s := step s
    match find? s with
    | some found => (some found, s)
    | none => runUntil step find? frames s

end Scheduler

end Barrage
