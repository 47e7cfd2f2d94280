import Barrage.Machine.Deed

/-!
# Starting trees

A tree that starts runs within the same turn up to its first wait. Children of a sequence follow one
another, those of a blocking action go on side by side, and those of another action become tasks of their
own.

A phase installs a source that cuts it short, and runs its children under a token that is linked to it and
to the token around the phase. When the children are over, for whatever reason, the phase is settled: what
it installed is taken back, the cause is found and reported, and the blocks for the cut and for the end
follow. An error of the children that is no cancellation leaves the phase at once.

## Main definitions

* `Step`: a turn on some stage
* `Turn.followedBy`: goes on in the same turn if a part is over
* `Leaf.start`: the first turn of a leaf
* `PhaseRun.settle`: the end of a phase
* `PatternRun.visit`: the phases of a pattern from some place on
* `Node.start`, `Phase.start`: the first turn of a tree and of a phase
* `Continuation.apply`: the turn after a part that is over
-/

namespace Barrage

variable {m : Type → Type} [Stage m]

/-- A turn on some stage. -/
abbrev Step (m : Type → Type) := m (Turn Activity)

/-- The turn after a part that is over with an answer. -/
abbrev AnswerStep (m : Type → Type) := Except MachineError Unit → Step m

namespace Step

/-- Goes on unless there was an error. -/
def onSuccess (next : Step m) : AnswerStep m
  | .ok () => next
  | .error e => return .done (.error e)

/-- Whether a token is cancelled. -/
def isCancelled (token : CancelToken) : m Bool := Stage.change (Scheduler.isCancelled token)

/-- Goes on unless a token is cancelled. -/
def unlessCancelled (token : CancelToken) (next : Step m) : Step m := do
  if ← isCancelled token then return .cancelled else next

end Step

/-- Goes on in the same turn if a part is over, and keeps what follows otherwise. -/
def Turn.followedBy (turn : Turn Activity) (next : Continuation) (go : AnswerStep m) : Step m :=
  match turn with
  | .done answer => go answer
  | .waiting rest => return .waiting (.andThen rest next)

/-- Whether the condition of a leaf holds. -/
def Callable.holds (c : Callable) : m (Except MachineError Bool) := do
  match ← Stage.perform (.evaluate c) with
  | .error e => return .error e
  | .ok value =>
    match value.asBool? with
    | some b => return .ok b
    | none => return .error (.leafType "wait_until" value.text .bool)

/-- A turn of a wait. -/
def Wait.step (wait : Wait Callable) : Step m :=
  return (← Wait.turn Step.isCancelled Callable.holds wait).map .wait

/-- The first turn of a leaf. -/
def Leaf.start (leaf : Leaf Callable) (token : CancelToken) : Step m :=
  Step.unlessCancelled token do
    match leaf with
    | .wait seconds =>
      match ← Stage.perform (.evaluate seconds) with
      | .error e => return .done (.error e)
      | .ok value =>
        match value.asFloat? with
        | some seconds => (Wait.frames (← Stage.change (Scheduler.framesFor seconds)) token).step
        | none => return .done (.error (.leafType "wait" value.text .float))
    | .waitUntil condition => (Wait.until condition token).step
    | .emit label value =>
      match ← Stage.perform (.evaluate value) with
      | .error e => return .done (.error e)
      | .ok value =>
        Stage.perform (.emit label value)
        return .finished
    | .shiftPhase =>
      let _ ← Stage.perform .shift
      Step.unlessCancelled token (return .finished)

/-- Makes a task of a tree. -/
def Node.detach (token : CancelToken) (node : Node Callable) : World.M Activity Unit :=
  Scheduler.spawn (.start node token)

/-- The most children of a blocking action that are looked at in every turn. -/
def joinLimit : Nat := 30

namespace Turn

/-- What is left of parts that go on side by side, or the first error; parts after an error get no
turn. -/
def collect (turn : Turn Activity) (others : m (Except MachineError (List Activity))) :
    m (Except MachineError (List Activity)) :=
  match turn with
  | .done (.error e) => return .error e
  | .done (.ok ()) => others
  | .waiting part => return (← others).map (part :: ·)

/-- The turn of parts that go on side by side. -/
def ofParts : Except MachineError (List Activity) → Turn Activity
  | .error e => .done (.error e)
  | .ok [] => .finished
  | .ok parts => .waiting (.join parts)

end Turn

namespace PhaseRun

/-- What a phase does when its children have finished. -/
def afterChildren (hold : Bool) (token : CancelToken) : Step m :=
  if hold then (Wait.cancelled token).step else Step.unlessCancelled token (return .finished)

/-- Why the children of a phase are over, unless they failed. -/
def cause? (run : PhaseRun) : Except MachineError Unit → World.M Activity (Except MachineError ClearCause)
  | .ok () => return .ok .cleared
  | .error .cancelled => do
    if (← World.hp) ≤ 0.0 && run.phase.props.hp > 0.0 then return .ok .hp
    else if (← get).sources.isExpired run.source then return .ok .timeout
    else return .ok .cancelled
  | .error e => return .error e

/-- Reports the end of a phase. -/
def report (run : PhaseRun) (cause : ClearCause) : World.M Activity Unit := do
  let props := run.phase.props
  let frames := (← get).clock.frame - run.started
  World.updateCampaign fun campaign =>
    { campaign with
      completions := campaign.completions ++ [⟨run.index, props.title, props.type, cause, frames⟩] }
  World.emit (.phaseEnded run.index cause)
  World.serve (.exit run.index)

/-- Takes back what a phase installed, finds out why its children are over, and reports it. What they failed
with is left to answer. -/
def conclude (run : PhaseRun) (answer : Except MachineError Unit) :
    World.M Activity (Except MachineError Unit) := do
  let props := run.phase.props
  World.updateExecutor fun executor => { executor with shifter := none }
  if props.lenient then World.updateCampaign fun campaign => { campaign with lenient := false }
  match ← run.cause? answer with
  | .error e =>
    Scheduler.cancel run.source
    return .error e
  | .ok cause =>
    Scheduler.cancel run.source
    if props.autocull then World.serve (.autocull props.title)
    if cause ≠ .cleared && (← get).shared.executor.allowFinish then
      match run.phase.atCut with
      | some node => node.detach run.token
      | none => pure ()
    run.report cause
    return .ok ()

/-- The end of a phase, given the block that follows it. -/
def settle (run : PhaseRun) (ending : Step m) : AnswerStep m := fun answer => do
  match ← Stage.change (run.conclude answer) with
  | .error e => return .done (.error e)
  | .ok () => Step.unlessCancelled run.token ending

end PhaseRun

namespace PatternRun

/-- The first turn of the phase at some place under a token. -/
abbrev Starts (m : Type → Type) := List (Nat → CancelToken → Step m)

/-- What is heard and seen of a phase before it starts. -/
def announce (run : PatternRun) (index : Nat) : World.M Activity Unit := do
  match run.props.bgms[index]? with
  | some track => World.serve (.bgm track)
  | none => pure ()
  if index > 0 && run.props.boss.isSome then
    World.serve (.lives (Pattern.remainingLives run.phases index))

/-- Starts a phase, and goes on with those after it. -/
def enter (run : PatternRun) (index : Nat) (start : Nat → CancelToken → Step m) (others : Step m) :
    Step m :=
  Step.unlessCancelled run.token do
    Stage.change (run.announce index)
    (← start index run.token).followedBy (.nextPhase run index) (Step.onSuccess others)

/-- The phases after the given one, with the frames before each; in one turn at most so many are
visited. -/
def visitWithin (run : PatternRun) (starts : Starts m) : (count : Nat) → (current : Option Nat) → Step m
  | 0, _ => return .finished
  | count + 1, current => do
    match ← Stage.change (World.nextPhase current) with
    | none => return .finished
    | some index =>
      match run.phases[index]?, starts[index]? with
      | some phase, some start =>
        let others := visitWithin run starts count (some index)
        if phase.props.skip then others
        else
          let enter := run.enter index start others
          match (← Stage.change get).shared.bufferFrames with
          | 0 => enter
          | frames =>
            (← (Wait.frames frames run.token).step).followedBy (.enterPhase run index)
              (Step.onSuccess enter)
      | _, _ => return .finished

/-- The phases after the given one. A jump is made once, so that no more than twice the phases are visited
in one turn. -/
def visit (run : PatternRun) (starts : Starts m) (current : Option Nat) : Step m :=
  run.visitWithin starts (2 * run.phases.length + 1) current

/-- Opens the boss of a pattern. -/
def openBoss (boss : Boss) : World.M Activity Unit :=
  World.updateCampaign fun campaign => { campaign with opened := campaign.opened ++ [boss.key] }

/-- Closes the boss of a pattern. -/
def dismissBoss (boss : Boss) : World.M Activity Unit := do
  World.serve (.lives 0)
  World.updateCampaign fun campaign => { campaign with closed := campaign.closed ++ [boss.key] }

/-- The end of a pattern with a boss. -/
def closeBoss (boss : Boss) : AnswerStep m := fun answer => do
  Stage.change (dismissBoss boss)
  return .done answer

/-- A whole pattern. -/
def start (run : PatternRun) (starts : Starts m) : Step m := do
  match run.props.boss with
  | none => run.visit starts none
  | some boss =>
    Stage.change (openBoss boss)
    (← run.visit starts none).followedBy (.closeBoss boss) (closeBoss boss)

end PatternRun

/-- Waits for the delay of an action. -/
def delayed (seconds : Float) (token : CancelToken) : Step m := do
  (Wait.frames (← Stage.change (Scheduler.framesFor seconds)) token).step

/-- The children of an action: tasks of their own, or else parts that the action waits for, few or
many. -/
def Node.together (blocking : Bool) (children : List (Node Callable)) (token : CancelToken)
    (parts : m (Except MachineError (List Activity))) (many : Step m) : Step m :=
  if blocking then
    if children.length ≤ joinLimit then do return .ofParts (← parts) else many
  else do
    Stage.change (children.forM (Node.detach token))
    return .finished

mutual

/-- The first turn of a tree. -/
def Node.start : Node Callable → CancelToken → Step m
  | .pattern props phases, token => PatternRun.start ⟨props, phases, token⟩ (Phase.starts phases)
  | .phase phase, token => phase.start 0 token
  | .action wait blocking children, token => do
    (← delayed wait token).followedBy (.spread blocking children token)
      (Step.onSuccess (Node.together blocking children token (Node.startParts children token)
        (Node.startMany true children token)))
  | .sequence wait children, token => do
    (← delayed wait token).followedBy (.sequence children token)
      (Step.onSuccess (Node.startInTurn children token))
  | .endBlock wait blocking children, token => do
    (← delayed wait token).followedBy (.spread blocking children token)
      (Step.onSuccess (Node.together blocking children token (Node.startParts children token)
        (Node.startMany true children token)))
  | .finish child, token => child.start token
  | .leaf leaf, token => leaf.start token

/-- Some trees one after another. -/
def Node.startInTurn : List (Node Callable) → CancelToken → Step m
  | [], _ => return .finished
  | node :: rest, token => do
    (← node.start token).followedBy (.sequence rest token)
      (Step.onSuccess (Node.startInTurn rest token))

/-- Some trees side by side. -/
def Node.startParts : List (Node Callable) → CancelToken →
    m (Except MachineError (List Activity))
  | [], _ => return .ok []
  | node :: rest, token => do (← node.start token).collect (Node.startParts rest token)

/-- Many trees side by side, each of which is looked at once. Their answers are taken in order: an error
counts if all trees before it have finished. If one has not, no other look is due and the trees stay as
they are. -/
def Node.startMany (finished : Bool) : List (Node Callable) → CancelToken → Step m
  | [], _ => return if finished then .finished else .waiting .stuck
  | node :: rest, token => do
    match ← node.start token with
    | .done (.ok ()) => Node.startMany finished rest token
    | .done (.error e) =>
      if finished then return .done (.error e) else Node.startMany false rest token
    | .waiting _ => Node.startMany false rest token

/-- The first turn of a block, if there is one. -/
def Node.startOption : Option (Node Callable) → CancelToken → Step m
  | none, _ => return .finished
  | some node, token => node.start token

/-- The first turn of a phase. -/
def Phase.start : Phase Callable → (index : Nat) → CancelToken → Step m
  | .mk props children atEnd atCut, index, token =>
    Step.unlessCancelled token do
      let run ← Stage.perform (.enter (.mk props children atEnd atCut) index token)
      let turn ← Node.startInTurn children run.joint
      let turn ← turn.followedBy (.hold props.hold run.joint)
        (Step.onSuccess (PhaseRun.afterChildren props.hold run.joint))
      turn.followedBy (.settle run) (run.settle (Node.startOption atEnd token))

/-- The first turns of some phases. -/
def Phase.starts : List (Phase Callable) → PatternRun.Starts m
  | [] => []
  | phase :: rest => phase.start :: Phase.starts rest

end

/-- The turn after a part that is over. -/
def Continuation.apply : Continuation → AnswerStep m
  | .sequence rest token => Step.onSuccess (Node.startInTurn rest token)
  | .spread blocking children token =>
    Step.onSuccess (Node.together blocking children token (Node.startParts children token)
      (Node.startMany true children token))
  | .hold stays token => Step.onSuccess (PhaseRun.afterChildren stays token)
  | .settle run => run.settle (Node.startOption run.phase.atEnd run.token)
  | .enterPhase run index =>
    let starts := Phase.starts run.phases
    match starts[index]? with
    | some start => Step.onSuccess (run.enter index start (run.visit starts (some index)))
    | none => Step.onSuccess (return .finished)
  | .nextPhase run index => Step.onSuccess (run.visit (Phase.starts run.phases) (some index))
  | .closeBoss boss => PatternRun.closeBoss boss
  | .expire source => Step.onSuccess do
    Stage.perform (.expire source)
    return .finished
  | .advanceTimers token => Step.onSuccess do
    Stage.change World.passFrame
    (← (Wait.frames 1 token).step).followedBy (.advanceTimers token) fun answer => return .done answer
  | .report => fun answer => do
    Stage.change (World.keepOutcome answer)
    return .done answer

end Barrage
