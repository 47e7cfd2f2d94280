import Barrage.Bake.Callable
import Barrage.Machine.Event
import Barrage.Machine.Wait
import Barrage.Pattern.Props

/-!
# The world of a run

The tasks of a run share one world: the host objects, the executor that the pattern runs on, the record
that the campaign keeps, and the services that show what happens. The executor knows the running phase
only by the source that cuts it short.

## Main definitions

* `Controller.next`: which phase comes next
* `Executor`, `Campaign`, `Services`, `World`: the parts of the world
* `World.damage`, `World.shiftPhase`: what cuts a phase short
-/

namespace Barrage

/-- Decides which phase comes next. -/
structure Controller where
  /-- The phase that comes next whatever its place. -/
  forced : Option Nat := none
  stopped : Bool := false
deriving DecidableEq, Repr

namespace Controller

/-- The phase after the given one: the forced one, once, or else the next in order. -/
def next (c : Controller) (current : Option Nat) : Option Nat × Controller :=
  if c.stopped then (none, c)
  else
    match c.forced with
    | some index => (some index, { c with forced := none })
    | none => (some (current.elim 0 (· + 1)), c)

/-- Makes a phase the next one. -/
def force (index : Nat) (c : Controller) : Controller := { c with forced := some index }

/-- Lets no further phase start. -/
def stop (c : Controller) : Controller := { c with stopped := true }

end Controller

/-- The entity that a pattern runs on, with what phases install on it. -/
structure Executor where
  entity : EntityHandle
  controller : Controller := {}
  /-- The source that cuts the running phase short. -/
  shifter : Option Nat := none
  /-- Whether phases that are cut short leave anything behind. -/
  allowFinish : Bool := true
  events : EventQueue := {}

/-- A phase that has ended. -/
structure Completion where
  index : Nat
  title : Option String
  type : Option PhaseType
  cause : ClearCause
  frames : Nat
deriving DecidableEq, Repr

/-- What the campaign keeps of a run. -/
structure Campaign where
  completions : List Completion := []
  opened : List String := []
  closed : List String := []
  lenient : Bool := false
deriving DecidableEq, Repr

/-- A call of a service. -/
inductive ServiceCall where
  | bgm (track : String)
  | lives (count : Nat)
  | cutin (title : Option String)
  | autocull (title : Option String)
  | enter (index : Nat)
  | exit (index : Nat)
deriving DecidableEq, Repr

/-- The services of a run: the calls that were made, and whether timers start anew in every phase. -/
structure Services where
  restartTimers : Bool := false
  calls : List ServiceCall := []

/-- Everything that the tasks of a run share. -/
structure World where
  hosts : Hosts
  executor : Executor
  campaign : Campaign := {}
  services : Services := {}
  /-- Frames between phases. -/
  bufferFrames : Nat := 2
  /-- What came of the run. -/
  outcome : Option (Except MachineError Unit) := none

namespace World

variable {τ : Type}

/-- Computations in the world of a run, whatever its tasks are. -/
abbrev M (τ : Type) := SchedulerM World τ

/-- Changes the executor. -/
def updateExecutor (f : Executor → Executor) : M τ Unit :=
  Scheduler.update fun w => { w with executor := f w.executor }

/-- Changes what the campaign keeps. -/
def updateCampaign (f : Campaign → Campaign) : M τ Unit :=
  Scheduler.update fun w => { w with campaign := f w.campaign }

/-- Calls a service. -/
def serve (call : ServiceCall) : M τ Unit :=
  Scheduler.update fun w => { w with services := { w.services with calls := w.services.calls ++ [call] } }

/-- Emits an event. -/
def emit (e : Event) : M τ Unit :=
  updateExecutor fun executor => { executor with events := executor.events.push e }

/-- Takes out the events that happened. -/
def drainEvents : M τ (List Event) := do
  let (events, queue) := (← get).shared.executor.events.drain
  updateExecutor fun executor => { executor with events := queue }
  return events

/-- Takes out the calls of services. -/
def drainCalls : M τ (List ServiceCall) := do
  let calls := (← get).shared.services.calls
  Scheduler.update fun w => { w with services := { w.services with calls := [] } }
  return calls

/-- Changes the hosts. -/
def updateHosts (f : Hosts → Hosts) : M τ Unit :=
  Scheduler.update fun w => { w with hosts := f w.hosts }

/-- Lets a frame pass for the timers. -/
def passFrame : M τ Unit := do
  let dt := (← get).clock.frameTime
  updateHosts (·.advance dt)

/-- Keeps what came of the run. -/
def keepOutcome (answer : Except MachineError Unit) : M τ Unit :=
  Scheduler.update fun w => { w with outcome := some answer }

/-- Hit points of the executor. -/
def hp : M τ Float := do
  let w := (← get).shared
  return w.hosts.hp w.executor.entity

/-- Sets the hit points of the executor. -/
def setHp (hp : Float) : M τ Unit :=
  Scheduler.update fun w => { w with hosts := w.hosts.setHp w.executor.entity hp }

/-- Cancels the source of the running phase, if a phase is running. -/
def cancelPhase : M τ Bool := do
  match (← get).shared.executor.shifter with
  | some source =>
    Scheduler.cancel source
    return true
  | none => return false

/-- Takes hit points from the executor and tells what is left. The blow that takes the last one ends the
running phase; who has none left cannot lose it again. -/
def damage (amount : Float) : M τ Float := do
  let before ← hp
  Scheduler.update fun w => { w with hosts := w.hosts.damage w.executor.entity amount }
  let after ← hp
  if before > 0.0 && after ≤ 0.0 then
    let _ ← cancelPhase
  return after

/-- Cuts the running phase short, and tells whether there was one. -/
def shiftPhase : M τ Bool := do
  let running ← cancelPhase
  if running then emit .phaseShifted
  return running

/-- The phase after the given one. -/
def nextPhase (current : Option Nat) : M τ (Option Nat) := do
  let (next, controller) := (← get).shared.executor.controller.next current
  updateExecutor fun executor => { executor with controller }
  return next

/-- Changes the controller. -/
def updateController (f : Controller → Controller) : M τ Unit :=
  updateExecutor fun executor => { executor with controller := f executor.controller }

/-- What expressions of a pattern are called with. -/
def leafArgs : M τ (List Value) := do
  return [.float (← get).clock.seconds, .float (← hp)]

/-- Calls the expression of a leaf. -/
def invoke (c : Callable) : M τ (Except MachineError Value) := do
  let args ← leafArgs
  let (answer, hosts) := c.invoke args (← get).shared.hosts
  updateHosts fun _ => hosts
  return answer.mapError .eval

end World

end Barrage
