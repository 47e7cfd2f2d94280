import Barrage.Machine.World
import Barrage.Pattern.Tree

/-!
# Activities

A tree that runs is always in some wait. An activity is what is left of it: the wait it is in, and what
follows when that is over. What follows is data as well, so that a run can be looked at between any two
frames.

## Main definitions

* `PhaseRun`, `PatternRun`: what a phase and a pattern on their way have to remember
* `Continuation`: what follows when a part of a tree is over
* `Activity`: a tree on its way
* `Activity.rank`: bound on the chains of tasks that an activity can start
-/

namespace Barrage

/-- A phase on its way. -/
structure PhaseRun where
  phase : Phase Callable
  /-- The place of the phase in its pattern. -/
  index : Nat
  /-- The token of the pattern around the phase. -/
  token : CancelToken
  /-- The source that cuts the phase short. -/
  source : Nat
  /-- The frame in which the phase started. -/
  started : Nat

/-- A pattern on its way. -/
structure PatternRun where
  props : PatternProps
  phases : List (Phase Callable)
  token : CancelToken

/-- What follows when a part of a tree is over. -/
inductive Continuation where
  /-- The other children of a sequence. -/
  | sequence (rest : List (Node Callable)) (token : CancelToken)
  /-- The children of an action whose delay is over. -/
  | spread (blocking : Bool) (children : List (Node Callable)) (token : CancelToken)
  /-- What a phase does when its children have finished. -/
  | hold (stays : Bool) (token : CancelToken)
  /-- The end of a phase. -/
  | settle (run : PhaseRun)
  /-- The start of a phase after the frames before it. -/
  | enterPhase (run : PatternRun) (index : Nat)
  /-- The phase after one that is over. -/
  | nextPhase (run : PatternRun) (index : Nat)
  /-- The end of a pattern with a boss. -/
  | closeBoss (boss : Boss)
  /-- The end of a source whose time is up. -/
  | expire (source : Nat)
  /-- The passage of a frame for the timers. -/
  | advanceTimers (token : CancelToken)
  /-- The answer of the whole run. -/
  | report

/-- A tree on its way. -/
inductive Activity where
  /-- A tree that has not started. -/
  | start (node : Node Callable) (token : CancelToken)
  | wait (wait : Wait Callable)
  | andThen (first : Activity) (next : Continuation)
  /-- Parts at the same time, those that are not finished. -/
  | join (parts : List Activity)
  /-- A join that nothing ends any more. -/
  | stuck

mutual

/-- Height of a tree. -/
def Node.height : Node Callable → Nat
  | .pattern _ phases => Phase.listHeight phases + 1
  | .phase phase => phase.height + 1
  | .action _ _ children => Node.listHeight children + 1
  | .sequence _ children => Node.listHeight children + 1
  | .endBlock _ _ children => Node.listHeight children + 1
  | .finish child => child.height + 1
  | .leaf _ => 0

/-- Height of the highest of some trees. -/
def Node.listHeight : List (Node Callable) → Nat
  | [] => 0
  | node :: rest => max node.height (Node.listHeight rest)

/-- Height of a block, if there is one. -/
def Node.optionHeight : Option (Node Callable) → Nat
  | none => 0
  | some node => node.height

/-- Height of a phase. -/
def Phase.height : Phase Callable → Nat
  | .mk _ children atEnd atCut =>
    max (Node.listHeight children) (max (Node.optionHeight atEnd) (Node.optionHeight atCut)) + 1

/-- Height of the highest of some phases. -/
def Phase.listHeight : List (Phase Callable) → Nat
  | [] => 0
  | phase :: rest => max phase.height (Phase.listHeight rest)

end

/-- Bound on the chains of tasks that a continuation can start. -/
def Continuation.rank : Continuation → Nat
  | sequence rest _ => Node.listHeight rest
  | spread _ children _ => Node.listHeight children + 1
  | settle run => run.phase.height
  | enterPhase run _ => Phase.listHeight run.phases
  | nextPhase run _ => Phase.listHeight run.phases
  | _ => 0

mutual

/-- Bound on the chains of tasks that an activity can start: each task is a smaller tree than the one
that started it. -/
def Activity.rank : Activity → Nat
  | .start node _ => node.height
  | .wait _ => 0
  | .andThen first next => max first.rank next.rank
  | .join parts => Activity.listRank parts
  | .stuck => 0

/-- Bound for some activities. -/
def Activity.listRank : List Activity → Nat
  | [] => 0
  | part :: rest => max part.rank (Activity.listRank rest)

end

end Barrage
