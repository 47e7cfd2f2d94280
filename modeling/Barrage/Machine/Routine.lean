import Barrage.Machine.Wait

/-!
# Routines

A routine is a list of steps for the scheduler: waits, entries in a log, cancellations, and other routines
that it spawns. It is the plainest kind of task, with nothing of a script in it.

## Main definitions

* `RoutineStep`, `Routine`: the steps, and a routine on its way
* `Journal`: what routines share: their log and the answer that is waited for
* `Routine.turn`: the turn of a routine
* `Routine.tick`, `Routine.runToEnd`: frames of a scheduler of routines
-/

namespace Barrage

/-- A condition on the frame. -/
structure FrameCondition where
  frame : Nat
  /-- Whether the condition fails, instead of holding, from its frame on. -/
  fails : Bool

/-- A step of a routine; entries of the log have any type. -/
inductive RoutineStep (α : Type) where
  | frames (count : Nat)
  | seconds (duration : Float)
  | nextFrame
  | cancelled
  | until (condition : FrameCondition)
  | cancel (source : Nat)
  | log (entry : α)
  | spawn (name : String) (token : CancelToken) (steps : List (RoutineStep α))

/-- What is done with the answer of a routine. -/
inductive RoutineEnd where
  /-- Every answer is put into the log. -/
  | logged
  /-- Only success is put into the log. -/
  | fired
  /-- The answer is kept under a number for whoever waits for it. -/
  | kept (number : Nat)
deriving DecidableEq, Repr

/-- A routine: the wait it is in, and the steps after it. -/
structure Routine (α : Type) where
  name : String
  token : CancelToken
  onEnd : RoutineEnd
  wait : Option (Wait FrameCondition) := none
  steps : List (RoutineStep α)

/-- What an entry of the log says. -/
inductive JournalNote (α : Type) where
  | entry (entry : α)
  | ended (answer : Except MachineError Unit)
  | fired

/-- An entry of the log: which routine wrote what in which frame. -/
structure JournalEntry (α : Type) where
  routine : String
  frame : Nat
  note : JournalNote α

/-- What routines share. -/
structure Journal (α : Type) where
  log : List (JournalEntry α) := []
  /-- The answers that were waited for, under their numbers. -/
  kept : List (Nat × Except MachineError Unit) := []
  /-- The number of the next answer to wait for. -/
  nextNumber : Nat := 0

namespace Routine

variable {α : Type}

/-- Schedulers of routines. -/
abbrev M (α : Type) := SchedulerM (Journal α) (Routine α)

mutual

/-- Length of the longest chain of routines that a step starts. -/
def stepRank : RoutineStep α → Nat
  | .spawn _ _ steps => stepsRank steps + 1
  | _ => 0

/-- Length of the longest chain of routines that some steps start. -/
def stepsRank : List (RoutineStep α) → Nat
  | [] => 0
  | step :: rest => max (stepRank step) (stepsRank rest)

end

/-- Length of the longest chain of routines that a routine starts. -/
def rank (r : Routine α) : Nat := stepsRank r.steps

/-- Puts a note into the log. -/
def note (name : String) (what : JournalNote α) : M α Unit := do
  let frame := (← get).clock.frame
  Scheduler.update fun journal => { journal with log := journal.log ++ [⟨name, frame, what⟩] }

/-- Takes out the log. -/
def drainLog : M α (List (JournalEntry α)) := do
  let log := (← get).shared.log
  Scheduler.update fun journal => { journal with log := [] }
  return log

/-- Does with an answer what is to be done with it. -/
def settle (r : Routine α) (answer : Except MachineError Unit) : M α Unit :=
  match r.onEnd with
  | .logged => note r.name (.ended answer)
  | .fired => if answer.isOk then note r.name .fired else return
  | .kept number =>
    Scheduler.update fun journal => { journal with kept := (number, answer) :: journal.kept }

/-- Whether a condition holds. -/
def holds (condition : FrameCondition) : M α (Except MachineError Bool) := do
  if (← get).clock.frame < condition.frame then return .ok false
  else if condition.fails then return .error (.stalled condition.frame)
  else return .ok true

/-- The wait of a step, if it is one. -/
def waitOf? (token : CancelToken) : RoutineStep α → M α (Option (Wait FrameCondition))
  | .frames count => return some (.frames count token)
  | .seconds duration => return some (.frames (← Scheduler.framesFor duration) token)
  | .nextFrame => return some .nextFrame
  | .cancelled => return some (.cancelled token)
  | .until condition => return some (.until condition token)
  | _ => return none

/-- Does a step that is no wait. -/
def act (name : String) : RoutineStep α → M α Unit
  | .cancel source => Scheduler.cancel source
  | .log entry => note name (.entry entry)
  | .spawn name token steps => Scheduler.spawn { name, token, onEnd := .logged, steps }
  | _ => return

/-- Does steps until one has to wait or fails. -/
def goOn (r : Routine α) : List (RoutineStep α) → M α (Option (Routine α))
  | [] => do
    r.settle (.ok ())
    return none
  | step :: rest => do
    match ← waitOf? r.token step with
    | none =>
      act r.name step
      goOn r rest
    | some wait =>
      match ← Wait.turn Scheduler.isCancelled holds wait with
      | .done (.ok ()) => goOn r rest
      | .done (.error e) =>
        r.settle (.error e)
        return none
      | .waiting wait => return some { r with wait := some wait, steps := rest }

/-- The turn of a routine: the wait it is in, and the steps after it once the wait is over. -/
def turn (r : Routine α) : M α (Option (Routine α)) := do
  match r.wait with
  | none => goOn r r.steps
  | some wait =>
    match ← Wait.turn Scheduler.isCancelled holds wait with
    | .done (.ok ()) => goOn r r.steps
    | .done (.error e) =>
      r.settle (.error e)
      return none
    | .waiting wait => return some { r with wait := some wait }

/-- A frame of a scheduler of routines. -/
def tick (s : Scheduler (Journal α) (Routine α)) : Scheduler (Journal α) (Routine α) :=
  ((Scheduler.tick turn rank).run s).2

/-- Spawns a routine and runs frames until it has an answer. -/
def runToEnd (r : Routine α) (frames : Nat) (s : Scheduler (Journal α) (Routine α)) :
    Except MachineError (Except MachineError Unit) × Scheduler (Journal α) (Routine α) :=
  let number := s.shared.nextNumber
  let s := ((do
    Scheduler.update fun journal => { journal with nextNumber := number + 1 }
    Scheduler.spawn { r with onEnd := .kept number } : M α Unit).run s).2
  match Scheduler.runUntil tick (·.shared.kept.lookup number) frames s with
  | (some answer, s) => (.ok answer, s)
  | (none, s) => (.error (.stalled frames), s)

end Routine

end Barrage
