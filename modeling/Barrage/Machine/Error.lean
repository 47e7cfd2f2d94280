import Barrage.Expr.Value

/-!
# Faults of a running machine

A machine that is cancelled unwinds to the nearest phase; every other fault ends the run.
-/

namespace Barrage

/-- Blocks that a phase may declare once. -/
inductive PhaseBlock where
  | «end» | finish
deriving DecidableEq, Repr

/-- Name of a block in documents and messages. -/
def PhaseBlock.name : PhaseBlock → String
  | «end» => "end"
  | finish => "finish"

/-- Why a machine stopped, or was never built. -/
inductive MachineError where
  /-- The token of the machine was cancelled. -/
  | cancelled
  | eval (e : EvalError)
  /-- The expression of a leaf gave a value of another type. -/
  | leafType (leaf shown : String) (expected : ValueType)
  | duplicateBlock (block : PhaseBlock)
  /-- The machine was still running when its frames were used up. -/
  | stalled (frames : Nat)
deriving DecidableEq, Repr

namespace MachineError

/-- The text of a fault. -/
def message : MachineError → String
  | cancelled => "cancelled"
  | eval e => e.message
  | leafType leaf shown expected => leaf ++ " returned " ++ shown ++ ", expected a " ++ expected.name
  | duplicateBlock block => "phase declares more than one " ++ block.name ++ " block"
  | stalled frames => s!"scheduler did not finish within {frames} frames"

/-- Whether a fault is a cancellation. -/
def isCancellation : MachineError → Bool
  | cancelled => true
  | _ => false

end MachineError

end Barrage
