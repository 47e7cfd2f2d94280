import Barrage.Machine.Activity

/-!
# Deeds

A turn changes the world in many small ways. Some of them are deeds, which a cancellation has to stop: an
expression is evaluated, its value is emitted, a phase is entered or cut short, and the time of a phase runs
out. Turns are written for any stage on which deeds can be done, so that one can look on: a stage may do
the deeds and nothing else, or keep a record of them as well.

## Main definitions

* `PhaseRun.open`: what happens when a phase is entered
* `Deed`, `Deed.run`: the deeds, and what each of them does to the world
* `Stage`: where turns are taken
-/

namespace Barrage

namespace PhaseRun

/-- The token of the children of a phase. -/
def joint (run : PhaseRun) : CancelToken := CancelToken.linked [run.token, .ofSource run.source]

/-- Opens a phase: what the services, the campaign and the executor learn about it, the source that cuts
it short, and the task that does so when its time is up. -/
def «open» (phase : Phase Callable) (index : Nat) (token : CancelToken) : World.M Activity PhaseRun := do
  let props := phase.props
  World.serve (.enter index)
  if (← get).shared.services.restartTimers then World.updateHosts Hosts.restart
  if props.cutin then World.serve (.cutin props.title)
  World.setHp (atLeastZero props.hp)
  if props.lenient then World.updateCampaign fun campaign => { campaign with lenient := true }
  World.emit (.phaseStarted index props.title)
  let source ← Scheduler.makeSource
  World.updateExecutor fun executor => { executor with shifter := some source }
  let run : PhaseRun := { phase, index, token, source, started := (← get).clock.frame }
  if props.timeout > 0.0 then
    let frames ← Scheduler.framesFor props.timeout
    Scheduler.spawn (.andThen (.wait (.frames frames run.joint)) (.expire source))
  return run

end PhaseRun

/-- What a tree does that a cancellation has to stop. -/
inductive Deed where
  /-- The value of an expression is asked for. -/
  | evaluate (expression : Callable)
  | emit (label : String) (value : Value)
  /-- The running phase is cut short. -/
  | shift
  | enter (phase : Phase Callable) (index : Nat) (token : CancelToken)
  /-- The time of a phase is up. -/
  | expire (source : Nat)

namespace Deed

/-- What a deed answers. -/
abbrev Answer : Deed → Type
  | evaluate _ => Except MachineError Value
  | emit _ _ => Unit
  | shift => Bool
  | enter _ _ _ => PhaseRun
  | expire _ => Unit

/-- Does a deed. -/
def run : (deed : Deed) → World.M Activity deed.Answer
  | evaluate expression => World.invoke expression
  | emit label value => World.emit (.emitted label value)
  | shift => World.shiftPhase
  | enter phase index token => PhaseRun.open phase index token
  | expire source => Scheduler.expire source

end Deed

/-- Where turns are taken: the world can be changed, and deeds can be done. -/
class Stage (m : Type → Type) extends Monad m where
  /-- Changes the world. -/
  change {α : Type} : World.M Activity α → m α
  /-- Does a deed. -/
  perform (deed : Deed) : m deed.Answer

/-- The plain stage does the deeds and nothing else. -/
instance : Stage (World.M Activity) where
  change act := act
  perform := Deed.run

end Barrage
