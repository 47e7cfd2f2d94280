import Barrage.Machine.Start

/-!
# Runs

A run is a scheduler of activities in a world. Between its frames others may act on it: the boss is hit,
phases are shifted and forced, and the whole run may be cancelled.

## Main definitions

* `Activity.turn`: the turn of an activity
* `Machine`, `Machine.tick`: a run, and a frame of it
* `Machine.rootTask`: the tree that a run is about
* `Outside`, `Outside.act`: what others may do between frames
* `Machine.runToEnd`: frames until the tree is over
* `Machine.frame`: a frame after actions from outside, and what happened in it
-/

namespace Barrage

mutual

variable {m : Type → Type} [Stage m]

/-- The turn of an activity. -/
def Activity.turn : Activity → Step m
  | .start node token => node.start token
  | .wait pause => pause.step
  | .andThen first next => do (← first.turn).followedBy next next.apply
  | .join parts => do return .ofParts (← Activity.turnParts parts)
  | .stuck => return .waiting .stuck

/-- The turns of parts that go on side by side. -/
def Activity.turnParts : List Activity → m (Except MachineError (List Activity))
  | [] => return .ok []
  | part :: rest => do (← part.turn).collect (Activity.turnParts rest)

end

/-- A turn of a task: what is left of it. -/
def Activity.taskTurn (task : Activity) : World.M Activity (Option Activity) := do
  match ← task.turn with
  | .done _ => return none
  | .waiting rest => return some rest

/-- A run. -/
abbrev Machine := Scheduler World Activity

namespace Machine

/-- A run in which nothing has happened. -/
def new (frameTime : Float) (world : World) : Machine := { clock := ⟨frameTime, 0⟩, shared := world }

/-- A frame. -/
def tick (m : Machine) : Machine := ((Scheduler.tick Activity.taskTurn Activity.rank).run m).2

/-- Adds a task. -/
def spawn (task : Activity) (m : Machine) : Machine :=
  ((Scheduler.spawn task : World.M Activity Unit).run m).2

/-- The task that runs a tree and keeps its answer. -/
def rootTask (node : Node Callable) (token : CancelToken) : Activity :=
  .andThen (.start node token) .report

/-- The task that lets time pass for the timers, frame by frame. -/
def clockTask (token : CancelToken) : Activity :=
  .andThen (.wait (.frames 1 token)) (.advanceTimers token)

/-- Runs frames until the tree has an answer. -/
def runToEnd (frames : Nat) (m : Machine) : Except MachineError (Except MachineError Unit) × Machine :=
  match Scheduler.runUntil tick (·.shared.outcome) frames m with
  | (some answer, m) => (.ok answer, m)
  | (none, m) => (.error (.stalled frames), m)

end Machine

/-- What others may do to a run between frames. -/
inductive Outside where
  | damage (amount : Float)
  | setHp (hp : Float)
  | shift
  | cancel (source : Nat)
  | force (index : Nat)
  | stop
  | allowFinish (allow : Bool)

/-- What an action from outside answers. -/
inductive Outside.Answer where
  | hp (hp : Float)
  | flag (b : Bool)
  | nothing

/-- Acts on a run from outside. -/
def Outside.act : Outside → World.M Activity Outside.Answer
  | damage amount => return .hp (← World.damage amount)
  | setHp hp => do
    World.setHp hp
    return .nothing
  | shift => return .flag (← World.shiftPhase)
  | cancel source => do
    Scheduler.cancel source
    return .nothing
  | force index => do
    World.updateController (Controller.force index)
    return .nothing
  | stop => do
    World.updateController Controller.stop
    return .nothing
  | allowFinish allow => do
    World.updateExecutor fun executor => { executor with allowFinish := allow }
    return .nothing

/-- What happened in a frame. -/
structure FrameReport where
  frame : Nat
  /-- The answers to the actions before the frame. -/
  answers : List Outside.Answer
  events : List Event
  calls : List ServiceCall
  /-- The phases that ended. -/
  ended : List Completion

/-- A frame after actions from outside. Time passes for the timers at its end. -/
def Machine.frame (actions : List Outside) (dt : Float) (m : Machine) : FrameReport × Machine :=
  let before := m.clock.frame
  let known := m.shared.campaign.completions.length
  let (answers, m) := (actions.mapM Outside.act).run m
  let close : World.M Activity (List Event × List ServiceCall) := do
    World.updateHosts (·.advance dt)
    return (← World.drainEvents, ← World.drainCalls)
  let ((events, calls), m) := close.run (Machine.tick m)
  (⟨before, answers, events, calls, m.shared.campaign.completions.drop known⟩, m)

end Barrage
