import Barrage.Machine.Error
import Barrage.Pattern.Props

/-!
# Trees of patterns

A pattern is a tree: phases hold actions, actions hold leaves, and leaves hold expressions. The tree does
not fix what an expression is. Documents give trees over source texts, and a machine runs a tree over
callables; compiling is a walk over the tree in the order of the document.

## Main definitions

* `Leaf`, `Node`, `Phase`: the trees
* `Phase.ofChildren`: takes the blocks for the end and the cut of a phase out of its children
* `Pattern`: phases with the properties they share
* `Node.compileWith`: replaces the expressions of a tree, from first to last
-/

namespace Barrage

/-- What a tree does in the end. -/
inductive Leaf (α : Type) where
  /-- Waits for as many seconds as the expression yields. -/
  | wait (seconds : α)
  /-- Waits for the first frame in which the expression holds. -/
  | waitUntil (condition : α)
  /-- Emits the value of the expression under a label. -/
  | emit (label : String) (value : α)
  /-- Cuts the running phase short. -/
  | shiftPhase

mutual

/-- A tree of actions. -/
inductive Node (α : Type) where
  /-- Phases one after another. -/
  | pattern (props : PatternProps) (phases : List (Phase α))
  | phase (phase : Phase α)
  /-- Children at the same time, after some seconds. A blocking action waits for them. -/
  | action (wait : Float) (blocking : Bool) (children : List (Node α))
  /-- Children one after another, after some seconds. -/
  | sequence (wait : Float) (children : List (Node α))
  /-- An action for the end of a phase that was not cancelled from outside. -/
  | endBlock (wait : Float) (blocking : Bool) (children : List (Node α))
  /-- What a phase leaves behind when it is cut short. -/
  | finish (child : Node α)
  | leaf (leaf : Leaf α)

/-- A phase: its children, and what follows its end and its cut. -/
inductive Phase (α : Type) where
  | mk (props : PhaseProps) (children : List (Node α)) (atEnd atCut : Option (Node α))

end

namespace Phase

variable {α : Type}

/-- Properties of a phase. -/
def props : Phase α → PhaseProps
  | mk props _ _ _ => props

/-- What a phase runs. -/
def children : Phase α → List (Node α)
  | mk _ children _ _ => children

/-- What is awaited after the end of a phase. -/
def atEnd : Phase α → Option (Node α)
  | mk _ _ atEnd _ => atEnd

/-- What is left behind when a phase is cut short. -/
def atCut : Phase α → Option (Node α)
  | mk _ _ _ atCut => atCut

/-- A phase with the boss of its pattern, unless it has its own. -/
def inherit (pattern : PatternProps) : Phase α → Phase α
  | mk props children atEnd atCut => mk (props.inherit pattern) children atEnd atCut

/-- Sorts children into those that run and the blocks that follow, given the blocks found before. -/
def sortChildren (atEnd atCut : Option (Node α)) : List (Node α) →
    Except MachineError (List (Node α) × Option (Node α) × Option (Node α))
  | [] => .ok ([], atEnd, atCut)
  | .endBlock wait blocking children :: rest =>
    if atEnd.isSome then .error (.duplicateBlock .end)
    else sortChildren (some (.endBlock wait blocking children)) atCut rest
  | .finish child :: rest =>
    if atCut.isSome then .error (.duplicateBlock .finish)
    else sortChildren atEnd (some child) rest
  | node :: rest => do
    let (kept, atEnd, atCut) ← sortChildren atEnd atCut rest
    .ok (node :: kept, atEnd, atCut)

/-- The phase with some children. Each block may be declared once. -/
def ofChildren (props : PhaseProps) (children : List (Node α)) : Except MachineError (Phase α) := do
  let (kept, atEnd, atCut) ← sortChildren none none children
  .ok (mk props kept atEnd atCut)

end Phase

/-- Phases one after another, with the properties they share. -/
structure Pattern (α : Type) where
  props : PatternProps
  phases : List (Phase α)

namespace Pattern

variable {α : Type}

/-- A pattern whose phases share its boss. -/
def ofPhases (props : PatternProps) (phases : List (Phase α)) : Pattern α :=
  ⟨props, phases.map (Phase.inherit props)⟩

/-- The tree of a pattern. -/
def toNode (pattern : Pattern α) : Node α := .pattern pattern.props pattern.phases

/-- How many phases from a place on cost the boss a life. -/
def remainingLives (phases : List (Phase α)) (start : Nat) : Nat :=
  (phases.drop start).countP fun phase => phase.props.isSpell

end Pattern

namespace Leaf

variable {α β : Type} {m : Type → Type} [Monad m]

/-- Replaces the expression of a leaf, given the type it is used at. -/
def compileWith (f : ValueType → α → m β) : Leaf α → m (Leaf β)
  | wait seconds => return wait (← f .float seconds)
  | waitUntil condition => return waitUntil (← f .bool condition)
  | emit label value => return emit label (← f .float value)
  | shiftPhase => return shiftPhase

end Leaf

mutual

variable {α β : Type} {m : Type → Type} [Monad m]

/-- Replaces the expressions of a tree from first to last. -/
def Node.compileWith (f : ValueType → α → m β) : Node α → m (Node β)
  | .pattern props phases => return .pattern props (← Phase.compileList f phases)
  | .phase phase => return .phase (← phase.compileWith f)
  | .action wait blocking children =>
    return .action wait blocking (← Node.compileList f children)
  | .sequence wait children => return .sequence wait (← Node.compileList f children)
  | .endBlock wait blocking children =>
    return .endBlock wait blocking (← Node.compileList f children)
  | .finish child => return .finish (← child.compileWith f)
  | .leaf leaf => return .leaf (← leaf.compileWith f)

/-- Replaces the expressions of some trees. -/
def Node.compileList (f : ValueType → α → m β) : List (Node α) → m (List (Node β))
  | [] => return []
  | node :: rest => return (← node.compileWith f) :: (← Node.compileList f rest)

/-- Replaces the expressions of a block, if there is one. -/
def Node.compileOption (f : ValueType → α → m β) : Option (Node α) → m (Option (Node β))
  | none => return none
  | some node => return some (← node.compileWith f)

/-- Replaces the expressions of a phase. -/
def Phase.compileWith (f : ValueType → α → m β) : Phase α → m (Phase β)
  | .mk props children atEnd atCut =>
    return .mk props (← Node.compileList f children) (← Node.compileOption f atEnd)
      (← Node.compileOption f atCut)

/-- Replaces the expressions of some phases. -/
def Phase.compileList (f : ValueType → α → m β) : List (Phase α) → m (List (Phase β))
  | [] => return []
  | phase :: rest => return (← phase.compileWith f) :: (← Phase.compileList f rest)

end

end Barrage
