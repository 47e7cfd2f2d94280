import Barrage.Expr.Value

/-!
# Events

What a running pattern tells whoever watches it, in the order in which it happens.
-/

namespace Barrage

/-- How a phase ended. -/
inductive ClearCause where
  /-- The hit points were used up. -/
  | hp
  /-- The time was up. -/
  | timeout
  /-- Something else cut it short. -/
  | cancelled
  /-- All of it has finished. -/
  | cleared
deriving DecidableEq, Repr

/-- Name of a cause in messages. -/
def ClearCause.name : ClearCause → String
  | hp => "Hp"
  | timeout => "Timeout"
  | cancelled => "Cancelled"
  | cleared => "Cleared"

/-- Something that happened in a run. -/
inductive Event where
  | phaseStarted (index : Nat) (title : Option String)
  | phaseEnded (index : Nat) (cause : ClearCause)
  | phaseShifted
  | emitted (label : String) (value : Value)

/-- The text of an event. -/
def Event.text : Event → String
  | phaseStarted index title => s!"PhaseStarted index={index} title=" ++ title.getD "-"
  | phaseEnded index cause => s!"PhaseEnded index={index} cause=" ++ cause.name
  | phaseShifted => "PhaseShifted"
  | emitted label value => "Emitted " ++ label ++ "=" ++ value.text

/-- The events that nobody has looked at yet. -/
structure EventQueue where
  events : List Event := []

namespace EventQueue

/-- Adds an event. -/
def push (q : EventQueue) (e : Event) : EventQueue := ⟨q.events ++ [e]⟩

/-- Takes out all events. -/
def drain (q : EventQueue) : List Event × EventQueue := (q.events, {})

/-- Number of events. -/
def length (q : EventQueue) : Nat := q.events.length

/-- Whether there are no events. -/
def isEmpty (q : EventQueue) : Bool := q.events.isEmpty

end EventQueue

end Barrage
