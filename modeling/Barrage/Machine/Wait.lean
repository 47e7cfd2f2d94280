import Barrage.Machine.Scheduler

/-!
# Waiting

A wait takes part of a turn in every frame until it is over. It looks at its token first: what is
cancelled in the frame in which its time is up ends as cancelled.

## Main definitions

* `Turn`: what comes of a turn
* `Wait`, `Wait.turn`: the ways to wait
-/

namespace Barrage

/-- What comes of a turn: an answer, or what is left to do in later frames. -/
inductive Turn (α : Type) where
  | done (answer : Except MachineError Unit)
  | waiting (rest : α)

namespace Turn

variable {α β : Type}

/-- The turn is over and all is well. -/
def finished : Turn α := done (.ok ())

/-- The turn ended in a cancellation. -/
def cancelled : Turn α := done (.error .cancelled)

/-- The same turn with another form of what is left. -/
def map (f : α → β) : Turn α → Turn β
  | done answer => done answer
  | waiting rest => waiting (f rest)

end Turn

/-- Something to wait for. -/
inductive Wait (γ : Type) where
  /-- A number of frames; one frame ends with the next turn. -/
  | frames (left : Nat) (token : CancelToken)
  /-- A condition, which is looked at once a frame. -/
  | until (condition : γ) (token : CancelToken)
  /-- The cancellation itself. -/
  | cancelled (token : CancelToken)

namespace Wait

variable {γ : Type} {m : Type → Type} [Monad m]

/-- The next frame, whatever happens meanwhile. -/
def nextFrame : Wait γ := frames 1 CancelToken.none

/-- The token of a wait. -/
def token : Wait γ → CancelToken
  | frames _ token => token
  | «until» _ token => token
  | cancelled token => token

/-- The turn of a wait that was not cancelled. -/
def liveTurn (holds : γ → m (Except MachineError Bool)) : Wait γ → m (Turn (Wait γ))
  | frames 0 _ => return .finished
  | frames (left + 1) token => return .waiting (frames left token)
  | «until» condition token => do
    match ← holds condition with
    | .error e => return .done (.error e)
    | .ok true => return .finished
    | .ok false => return .waiting («until» condition token)
  | cancelled token => return .waiting (cancelled token)

/-- The part of a wait in a turn, given how tokens and conditions are looked at. -/
def turn (isCancelled : CancelToken → m Bool) (holds : γ → m (Except MachineError Bool))
    (wait : Wait γ) : m (Turn (Wait γ)) := do
  if ← isCancelled wait.token then return .cancelled
  else liveTurn holds wait

end Wait

end Barrage
