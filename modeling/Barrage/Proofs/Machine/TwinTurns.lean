import Barrage.Proofs.Machine.Abreast

/-!
# Turns of runs that go abreast

Trees that differ in nothing but their expressions take the same turns: whatever a turn looks at is the same in both
runs, an expression and its unit give the same value or both fail, and a fault ends a tree in the same way whatever it
says. Only a cancellation is treated as something else, and it comes in both runs or in none. So what is left of the two
turns differs in its expressions again, and so do the tasks that were spawned.

## Main results

* `matches_open`, `matches_conclude` — the two ends of a phase
* `lockstep_nodeStart`, `lockstep_apply` — the first turn of a tree, and the turn after a part that is over
* `Activity.lockstep_turn` — the turn of an activity
* `Activity.Twin.rank_eq` — both runs bound their generations in the same way
-/

namespace Barrage

variable {base : Hosts} {past : List Note}

/-- Turns that keep runs abreast and leave activities that differ in their expressions. -/
abbrev LockstepTurn (base : Hosts) (past : List Note) (x : Step Watched) (y : Step (World.M Activity)) : Prop :=
  Lockstep base past (Turn.Twin base) x y

/-! ### Trees with other expressions -/

section Maps

variable {α β γ : Type}

theorem Node.mapList_eq_map (g : α → β) (nodes : List (Node α)) : Node.mapList g nodes = nodes.map (Node.map g) := by
  induction nodes with
  | nil => rfl
  | cons node rest ih => exact congrArg (node.map g :: ·) ih

/-- What relates trees with other expressions relates lists of them. -/
theorem Node.forall₂_mapList {R : Node β → Node γ → Prop} {f : α → β} {g : α → γ}
    (h : ∀ node : Node α, R (node.map f) (node.map g)) (nodes : List (Node α)) :
    List.Forall₂ R (Node.mapList f nodes) (Node.mapList g nodes) := by
  rw [Node.mapList_eq_map, Node.mapList_eq_map, List.forall₂_map_left_iff, List.forall₂_map_right_iff]
  exact List.forall₂_same.2 fun node _ => h node

@[simp] theorem Phase.props_map (g : α → β) (phase : Phase α) : (phase.map g).props = phase.props := by
  cases phase
  rfl

/-- The lives that phases cost are a matter of their properties. -/
theorem Pattern.remainingLives_mapList (g : α → β) (phases : List (Phase α)) (start : Nat) :
    Pattern.remainingLives (Phase.mapList g phases) start = Pattern.remainingLives phases start := by
  simp only [Pattern.remainingLives, Phase.mapList_eq_map, ← List.map_drop, List.countP_map, Function.comp_def,
    Phase.props_map]

end Maps

mutual

/-- How high a tree is does not depend on its expressions. -/
theorem Node.height_map {α : Type} (f g : α → Callable) : (node : Node α) → (node.map f).height = (node.map g).height
  | .pattern _ phases => congrArg (· + 1) (Phase.listHeight_mapList f g phases)
  | .phase phase => congrArg (· + 1) (Phase.height_map f g phase)
  | .action _ _ children | .sequence _ children | .endBlock _ _ children =>
    congrArg (· + 1) (Node.listHeight_mapList f g children)
  | .finish child => congrArg (· + 1) (Node.height_map f g child)
  | .leaf _ => rfl

theorem Node.listHeight_mapList {α : Type} (f g : α → Callable) : (nodes : List (Node α)) →
    Node.listHeight (Node.mapList f nodes) = Node.listHeight (Node.mapList g nodes)
  | [] => rfl
  | node :: rest => congrArg₂ max (Node.height_map f g node) (Node.listHeight_mapList f g rest)

theorem Node.optionHeight_mapOption {α : Type} (f g : α → Callable) : (block : Option (Node α)) →
    Node.optionHeight (Node.mapOption f block) = Node.optionHeight (Node.mapOption g block)
  | none => rfl
  | some node => Node.height_map f g node

theorem Phase.height_map {α : Type} (f g : α → Callable) : (phase : Phase α) →
    (phase.map f).height = (phase.map g).height
  | .mk _ children atEnd atCut => by
    rw [Phase.map, Phase.map, Phase.height, Phase.height, Node.listHeight_mapList f g children,
      Node.optionHeight_mapOption f g atEnd, Node.optionHeight_mapOption f g atCut]

theorem Phase.listHeight_mapList {α : Type} (f g : α → Callable) : (phases : List (Phase α)) →
    Phase.listHeight (Phase.mapList f phases) = Phase.listHeight (Phase.mapList g phases)
  | [] => rfl
  | phase :: rest => congrArg₂ max (Phase.height_map f g phase) (Phase.listHeight_mapList f g rest)

end

theorem Continuation.Twin.rank_eq {next next' : Continuation} (h : next.Twin base next') : next.rank = next'.rank := by
  cases h with
  | sequence rest token => exact Node.listHeight_mapList _ _ rest
  | spread blocking children token => exact congrArg (· + 1) (Node.listHeight_mapList _ _ children)
  | settle h =>
    cases h with
    | mk phase => exact Phase.height_map _ _ phase
  | enterPhase h | nextPhase h =>
    cases h with
    | mk props phases => exact Phase.listHeight_mapList _ _ phases
  | _ => rfl

mutual

/-- Activities that differ in their expressions start chains of tasks of the same length. -/
theorem Activity.Twin.rank_eq : {a a' : Activity} → a.Twin base a' → a.rank = a'.rank
  | _, _, .start node _ => Node.height_map _ _ node
  | _, _, .frames _ _ | _, _, .condition _ _ | _, _, .cancelled _ | _, _, .stuck => rfl
  | _, _, .andThen hfirst hnext => congrArg₂ max (Activity.Twin.rank_eq hfirst) hnext.rank_eq
  | _, _, .join h => Activity.Twin.listRank_eq h

theorem Activity.Twin.listRank_eq : {parts parts' : List Activity} → List.Forall₂ (Activity.Twin base) parts parts' →
    Activity.listRank parts = Activity.listRank parts'
  | _, _, .nil => rfl
  | _, _, .cons hfirst hrest => congrArg₂ max (Activity.Twin.rank_eq hfirst) (Activity.Twin.listRank_eq hrest)

end

/-! ### Parts of turns -/

theorem lockstep_done {answer answer' : Except MachineError Unit} (h : AnswersAlike Eq answer answer') :
    LockstepTurn base past (pure (.done answer)) (pure (.done answer')) :=
  lockstep_pure (.done h)

theorem lockstep_onSuccess {x : Step Watched} {y : Step (World.M Activity)} (h : LockstepTurn base past x y)
    {answer answer' : Except MachineError Unit} (hanswer : AnswersAlike Eq answer answer') :
    LockstepTurn base past (Step.onSuccess x answer) (Step.onSuccess y answer') := by
  cases hanswer with
  | ok => exact h
  | cancelled => exact lockstep_done .cancelled
  | failed he he' => exact lockstep_done (.failed he he')

/-- A part that is over goes on, and one that is not keeps what follows. -/
theorem lockstep_followedBy {turn turn' : Turn Activity} {next next' : Continuation} {x : AnswerStep Watched}
    {y : AnswerStep (World.M Activity)} (hturn : turn.Twin base turn') (hnext : next.Twin base next')
    (h : ∀ {answer answer'}, AnswersAlike Eq answer answer' → LockstepTurn base past (x answer) (y answer')) :
    LockstepTurn base past (turn.followedBy next x) (turn'.followedBy next' y) := by
  cases hturn with
  | done hanswer => exact h hanswer
  | waiting hrest => exact lockstep_pure (.waiting (.andThen hrest hnext))

theorem lockstep_holds (c : TwinPair base) (token : CancelToken) :
    LockstepTurn base past (do return (← Wait.liveTurn Callable.holds (.until c.direct token)).map .wait)
      (do return (← Wait.liveTurn Callable.holds (.until c.served token)).map .wait) := by
  simp only [Wait.liveTurn, Callable.holds, bind_assoc]
  refine (lockstep_evaluate c).bind fun answer answer' hanswer => ?_
  cases hanswer with
  | @ok value _ heq =>
    subst heq
    dsimp only
    rcases value.asBool? with - | - | -
    · exact lockstep_pure (.done (.failed rfl rfl))
    · exact lockstep_pure (.waiting (.condition c token))
    · exact lockstep_pure (.done (.ok rfl))
  | cancelled => exact lockstep_pure (.done .cancelled)
  | failed he he' => exact lockstep_pure (.done (.failed he he'))

theorem lockstep_wait {pause pause' : Wait Callable} (h : (Activity.wait pause).Twin base (.wait pause')) :
    LockstepTurn base past pause.step pause'.step := by
  rw [Wait.step_eq, Wait.step_eq]
  cases h with
  | frames left token =>
    refine lockstep_unlessCancelled (.done .cancelled) ?_
    cases left with
    | zero => exact lockstep_pure (.done (.ok rfl))
    | succ left => exact lockstep_pure (.waiting (.frames left token))
  | condition c token => exact lockstep_unlessCancelled (.done .cancelled) (lockstep_holds c token)
  | cancelled token =>
    exact lockstep_unlessCancelled (.done .cancelled) (lockstep_pure (.waiting (.cancelled token)))

theorem lockstep_frames (left : Nat) (token : CancelToken) :
    LockstepTurn base past (Wait.frames left token : Wait Callable).step (Wait.frames left token : Wait Callable).step :=
  lockstep_wait (.frames left token)

theorem lockstep_delayed (seconds : Float) (token : CancelToken) :
    LockstepTurn base past (delayed seconds token) (delayed seconds token) :=
  (lockstep_change (matches_framesFor seconds)).andThen fun _ => lockstep_frames _ token

theorem lockstep_leafStart (act : Leaf (TwinPair base)) (token : CancelToken) :
    LockstepTurn base past ((act.map TwinPair.direct).start token) ((act.map TwinPair.served).start token) := by
  refine lockstep_unlessCancelled (.done .cancelled) ?_
  cases act with
  | wait seconds =>
    refine (lockstep_evaluate seconds).bind fun answer answer' hanswer => ?_
    cases hanswer with
    | @ok value _ heq =>
      subst heq
      dsimp only
      cases value.asFloat? with
      | none => exact lockstep_done (.failed rfl rfl)
      | some seconds => exact lockstep_delayed seconds token
    | cancelled => exact lockstep_done .cancelled
    | failed he he' => exact lockstep_done (.failed he he')
  | waitUntil c => exact lockstep_wait (.condition c token)
  | emit label value =>
    refine (lockstep_evaluate value).bind fun answer answer' hanswer => ?_
    cases hanswer with
    | @ok value _ heq =>
      subst heq
      have hemit : Matches base Eq (Deed.emit label value).run (Deed.emit label value).run := matches_emit _
      exact (lockstep_perform (fun _ h => by cases h) hemit).bind fun _ _ _ => lockstep_done (.ok rfl)
    | cancelled => exact lockstep_done .cancelled
    | failed he he' => exact lockstep_done (.failed he he')
  | shiftPhase =>
    have hshift : Matches base Eq Deed.shift.run Deed.shift.run := matches_shiftPhase
    refine (lockstep_perform (fun _ h => by cases h) hshift).bind fun _ _ _ => ?_
    exact lockstep_unlessCancelled (.done .cancelled) (lockstep_done (.ok rfl))

/-- What is left of parts is a join of them, if anything is left. -/
theorem lockstep_ofParts {answer answer' : Except MachineError (List Activity)} (h : PartsTwin base answer answer') :
    LockstepTurn base past (pure (.ofParts answer)) (pure (.ofParts answer')) := by
  cases h with
  | ok hparts =>
    cases hparts with
    | nil => exact lockstep_done (.ok rfl)
    | cons hfirst hrest => exact lockstep_pure (.waiting (.join (.cons hfirst hrest)))
  | cancelled => exact lockstep_done .cancelled
  | failed he he' => exact lockstep_done (.failed he he')

/-- The children of an action become tasks, or go on as its parts. -/
theorem lockstep_together (blocking : Bool) (children : List (Node (TwinPair base))) (token : CancelToken)
    {parts : Watched (Except MachineError (List Activity))}
    {parts' : World.M Activity (Except MachineError (List Activity))} {many : Step Watched}
    {many' : Step (World.M Activity)} (hparts : Lockstep base past (PartsTwin base) parts parts')
    (hmany : LockstepTurn base past many many') :
    LockstepTurn base past (Node.together blocking (Node.mapList TwinPair.direct children) token parts many)
      (Node.together blocking (Node.mapList TwinPair.served children) token parts' many') := by
  have hdetach := Node.forall₂_mapList (R := fun node node' =>
    Matches base Eq (Node.detach token node) (Node.detach token node')) (f := TwinPair.direct) (g := TwinPair.served)
    (fun node => matches_spawn (.start node token)) children
  unfold Node.together
  -- Which way is taken is a matter of how many children there are, and that is the same in both runs.
  rw [hdetach.length_eq]
  split
  · split
    · exact hparts.bind fun _ _ => lockstep_ofParts
    · exact hmany
  · exact (lockstep_change (matches_forM hdetach)).bind fun _ _ _ => lockstep_done (.ok rfl)

/-- What is left of some parts is put in front of what is left of the others. -/
theorem lockstep_collect {turn turn' : Turn Activity} {x : Watched (Except MachineError (List Activity))}
    {y : World.M Activity (Except MachineError (List Activity))} (hturn : turn.Twin base turn')
    (h : Lockstep base past (PartsTwin base) x y) :
    Lockstep base past (PartsTwin base) (turn.collect x) (turn'.collect y) := by
  cases hturn with
  | done hanswer =>
    cases hanswer with
    | ok => exact h
    | cancelled => exact lockstep_pure .cancelled
    | failed he he' => exact lockstep_pure (.failed he he')
  | waiting hpart =>
    refine h.bind fun _ _ hanswer => lockstep_pure ?_
    cases hanswer with
    | ok hrest => exact .ok (.cons hpart hrest)
    | cancelled => exact .cancelled
    | failed he he' => exact .failed he he'

/-! ### Phases -/

/-- The entry of a phase. -/
theorem matches_open (phase : Phase (TwinPair base)) (index : Nat) (token : CancelToken) :
    Matches base (PhaseRun.Twin base) (PhaseRun.open (phase.map TwinPair.direct) index token)
      (PhaseRun.open (phase.map TwinPair.served) index token) := by
  unfold PhaseRun.open
  simp only [Phase.props_map]
  refine (matches_serve _).andThen fun _ => matches_get.bind fun p p' hp => ?_
  rw [hp.shared.services]
  refine matches_when matches_restart (matches_when (matches_serve _) ?_)
  refine (matches_setHp _).andThen fun _ => matches_when (matches_updateCampaign _) ?_
  refine (matches_emit _).andThen fun _ => matches_makeSource.andThen fun source => ?_
  refine (matches_updateExecutor _).andThen fun _ => matches_get.bind fun q q' hq => ?_
  rw [hq.clock]
  split
  · refine (matches_framesFor _).andThen fun frames => Matches.andThen (matches_spawn ?_) fun _ =>
      matches_pure (.mk phase index token source _)
    exact .andThen (.frames _ _) (.expire source)
  · exact matches_pure (.mk phase index token source _)

/-- Why the children of a phase are over is found out in the same way. -/
theorem matches_cause {run run' : PhaseRun} (h : run.Twin base run') {answer answer' : Except MachineError Unit}
    (hanswer : AnswersAlike Eq answer answer') :
    Matches base (AnswersAlike Eq) (run.cause? answer) (run'.cause? answer') := by
  refine matches_look (run.run_cause? answer) (run'.run_cause? answer') fun p p' hp => ?_
  rw [PhaseRun.run_cause?_eq, PhaseRun.run_cause?_eq]
  cases hanswer with
  | ok => exact .ok rfl
  | cancelled =>
    refine .ok ?_
    cases h with
    | mk phase => simp only [PhaseRun.cutCause, Phase.props_map, hp.hp, hp.sources]
  | failed he he' =>
    rw [PhaseRun.causeOf_eq_error_iff.2 ⟨rfl, he⟩, PhaseRun.causeOf_eq_error_iff.2 ⟨rfl, he'⟩]
    exact .failed he he'

/-- When a phase is settled, what it leaves behind differs in its expressions. -/
theorem matches_conclude {run run' : PhaseRun} (h : run.Twin base run') {answer answer' : Except MachineError Unit}
    (hanswer : AnswersAlike Eq answer answer') :
    Matches base (AnswersAlike Eq) (run.conclude answer) (run'.conclude answer') := by
  have hcause := matches_cause h hanswer
  cases h with
  | mk phase index token source started =>
    unfold PhaseRun.conclude
    simp only [Phase.props_map]
    refine (matches_updateExecutor _).andThen fun _ => matches_when (matches_updateCampaign _) ?_
    refine hcause.bind fun cause cause' hcause => ?_
    have hfailed {e e' : MachineError} (h : AnswersAlike (α := Unit) Eq (.error e) (.error e')) :
        Matches base (AnswersAlike (α := Unit) Eq) (do
          Scheduler.cancel source
          return .error e) (do
          Scheduler.cancel source
          return .error e') :=
      (matches_cancel source).andThen fun _ => matches_pure h
    cases hcause with
    | cancelled => exact hfailed .cancelled
    | failed he he' => exact hfailed (.failed he he')
    | @ok cause _ heq =>
      subst heq
      have hreport : Matches base (AnswersAlike Eq)
          (do
            PhaseRun.report ⟨phase.map TwinPair.direct, index, token, source, started⟩ cause
            return Except.ok (ε := MachineError) ())
          (do
            PhaseRun.report ⟨phase.map TwinPair.served, index, token, source, started⟩ cause
            return Except.ok (ε := MachineError) ()) := by
        refine Matches.andThen (matches_get.bind fun p p' hp => ?_) fun _ => matches_pure (.ok rfl)
        simp only [Phase.props_map, hp.clock]
        exact (matches_updateCampaign _).andThen fun _ => (matches_emit _).andThen fun _ => matches_serve _
      refine (matches_cancel source).andThen fun _ => matches_when (matches_serve _) ?_
      refine matches_get.bind fun p p' hp => ?_
      rw [hp.shared.executor]
      split
      · rcases phase with ⟨props, children, atEnd, atCut⟩
        cases atCut with
        | none => exact hreport
        | some node => exact (matches_spawn (.start node token)).andThen fun _ => hreport
      · exact hreport

/-- The end of a phase, and the block that follows it. -/
theorem lockstep_settle {run run' : PhaseRun} (h : run.Twin base run') {x : Step Watched} {y : Step (World.M Activity)}
    (hx : LockstepTurn base past x y) {answer answer' : Except MachineError Unit}
    (hanswer : AnswersAlike Eq answer answer') : LockstepTurn base past (run.settle x answer) (run'.settle y answer') := by
  refine (lockstep_change (matches_conclude h hanswer)).bind fun outcome outcome' houtcome => ?_
  cases houtcome with
  | ok =>
    have htoken : run'.token = run.token := by cases h; rfl
    dsimp only
    rw [htoken]
    exact lockstep_unlessCancelled (.done .cancelled) hx
  | cancelled => exact lockstep_done .cancelled
  | failed he he' => exact lockstep_done (.failed he he')

theorem lockstep_afterChildren (hold : Bool) (token : CancelToken) :
    LockstepTurn base past (PhaseRun.afterChildren hold token) (PhaseRun.afterChildren hold token) := by
  unfold PhaseRun.afterChildren
  split
  · exact lockstep_wait (.cancelled token)
  · exact lockstep_unlessCancelled (.done .cancelled) (lockstep_done (.ok rfl))

/-! ### Patterns -/

/-- The phases of two patterns, which start in the same way. -/
def LockstepStarts (base : Hosts) (past : List Note) (starts : PatternRun.Starts Watched)
    (starts' : PatternRun.Starts (World.M Activity)) : Prop :=
  ∀ place : Nat, Option.Rel
    (fun start start' => ∀ index token, LockstepTurn base past (start index token) (start' index token))
    starts[place]? starts'[place]?

theorem matches_announce {run run' : PatternRun} (h : run.Twin base run') (index : Nat) :
    Matches base Eq (run.announce index) (run'.announce index) := by
  cases h with
  | mk props phases token =>
    unfold PatternRun.announce
    simp only [Pattern.remainingLives_mapList]
    have hlives : Matches base Eq (if index > 0 && props.boss.isSome then
        World.serve (.lives (Pattern.remainingLives phases index)) else pure () : World.M Activity Unit)
        (if index > 0 && props.boss.isSome then
          World.serve (.lives (Pattern.remainingLives phases index)) else pure ()) := by
      split
      · exact matches_serve _
      · exact matches_pure rfl
    cases props.bgms[index]? with
    | none => exact hlives
    | some track => exact (matches_serve _).andThen fun _ => hlives

theorem lockstep_enter {run run' : PatternRun} (h : run.Twin base run') {index : Nat}
    {start : Nat → CancelToken → Step Watched} {start' : Nat → CancelToken → Step (World.M Activity)}
    {others : Step Watched} {others' : Step (World.M Activity)}
    (hstart : LockstepTurn base past (start index run.token) (start' index run.token))
    (hothers : LockstepTurn base past others others') :
    LockstepTurn base past (run.enter index start others) (run'.enter index start' others') := by
  have htoken : run'.token = run.token := by cases h; rfl
  unfold PatternRun.enter
  rw [htoken]
  refine lockstep_unlessCancelled (.done .cancelled) ?_
  refine (lockstep_change (matches_announce h index)).bind fun _ _ _ => hstart.bind fun _ _ hturn => ?_
  exact lockstep_followedBy hturn (.nextPhase h index) (lockstep_onSuccess hothers)

theorem lockstep_visit {run run' : PatternRun} (h : run.Twin base run') {starts : PatternRun.Starts Watched}
    {starts' : PatternRun.Starts (World.M Activity)} (hstarts : LockstepStarts base past starts starts')
    (current : Option Nat) : LockstepTurn base past (run.visit starts current) (run'.visit starts' current) := by
  have htoken : run'.token = run.token := by cases h; rfl
  have hlength : run'.phases.length = run.phases.length := by
    cases h
    rw [Phase.mapList_eq_map, Phase.mapList_eq_map, List.length_map, List.length_map]
  unfold PatternRun.visit
  rw [hlength]
  generalize 2 * run.phases.length + 1 = count
  -- The phase that comes next need not be a later one, so the induction is on the rounds that are left.
  induction count generalizing current with
  | zero => exact lockstep_done (.ok rfl)
  | succ count ih =>
    refine (lockstep_change (matches_nextPhase current)).andThen fun next => ?_
    cases next with
    | none => exact lockstep_done (.ok rfl)
    | some index =>
      have hphase : Option.Rel (fun phase phase' => Phase.props phase' = Phase.props phase)
          run.phases[index]? run'.phases[index]? := by
        cases h with
        | mk props phases =>
          rw [Phase.mapList_eq_map, Phase.mapList_eq_map, List.getElem?_map, List.getElem?_map]
          cases phases[index]? with
          | none => exact .none
          | some phase => exact .some ((Phase.props_map _ phase).trans (Phase.props_map _ phase).symm)
      have hplace := hstarts index
      dsimp only
      generalize run.phases[index]? = phase, run'.phases[index]? = phase', starts[index]? = start,
        starts'[index]? = start' at hphase hplace ⊢
      cases hphase with
      | none => exact lockstep_done (.ok rfl)
      | some hprops =>
        cases hplace with
        | none => exact lockstep_done (.ok rfl)
        | some hstart =>
          have henter := lockstep_enter h (hstart index run.token) (ih (some index))
          dsimp only
          rw [hprops]
          split
          · exact ih _
          refine (lockstep_change matches_get).bind fun p p' hp => ?_
          rw [hp.shared.bufferFrames, htoken]
          cases p.shared.bufferFrames with
          | zero => exact henter
          | succ frames =>
            refine (lockstep_frames _ run.token).bind fun _ _ hturn => ?_
            exact lockstep_followedBy hturn (.enterPhase h index) (lockstep_onSuccess henter)

theorem lockstep_closeBoss (boss : Boss) {answer answer' : Except MachineError Unit}
    (hanswer : AnswersAlike Eq answer answer') :
    LockstepTurn base past (PatternRun.closeBoss boss answer) (PatternRun.closeBoss boss answer') := by
  have hdismiss : Matches base Eq (PatternRun.dismissBoss boss) (PatternRun.dismissBoss boss) :=
    (matches_serve _).andThen fun _ => matches_updateCampaign _
  exact (lockstep_change hdismiss).bind fun _ _ _ => lockstep_done hanswer

theorem lockstep_patternStart {run run' : PatternRun} (h : run.Twin base run') {starts : PatternRun.Starts Watched}
    {starts' : PatternRun.Starts (World.M Activity)} (hstarts : LockstepStarts base past starts starts') :
    LockstepTurn base past (run.start starts) (run'.start starts') := by
  have hboss : run'.props.boss = run.props.boss := by cases h; rfl
  unfold PatternRun.start
  rw [hboss]
  cases run.props.boss with
  | none => exact lockstep_visit h hstarts none
  | some boss =>
    refine (lockstep_change (matches_updateCampaign _)).bind fun _ _ _ => ?_
    refine (lockstep_visit h hstarts none).bind fun _ _ hturn => ?_
    exact lockstep_followedBy hturn (.closeBoss boss) (lockstep_closeBoss boss)

/-! ### Trees -/

mutual

/-- The first turn of a tree. -/
theorem lockstep_nodeStart : (node : Node (TwinPair base)) → (token : CancelToken) →
    LockstepTurn base past ((node.map TwinPair.direct).start token) ((node.map TwinPair.served).start token)
  | .pattern props phases, token => by
    rw [Node.map, Node.map, Node.start, Node.start]
    exact lockstep_patternStart (.mk props phases token) (lockstep_phaseStarts phases)
  | .phase phase, token => by
    rw [Node.map, Node.map, Node.start, Node.start]
    exact lockstep_phaseStart phase 0 token
  | .action wait blocking children, token => by
    rw [Node.map, Node.map, Node.start, Node.start]
    refine (lockstep_delayed wait token).bind fun _ _ hturn => ?_
    refine lockstep_followedBy hturn (.spread blocking children token) (lockstep_onSuccess ?_)
    exact lockstep_together blocking children token (lockstep_startParts children token)
      (lockstep_startMany children true token)
  | .sequence wait children, token => by
    rw [Node.map, Node.map, Node.start, Node.start]
    refine (lockstep_delayed wait token).bind fun _ _ hturn => ?_
    exact lockstep_followedBy hturn (.sequence children token) (lockstep_onSuccess (lockstep_startInTurn children token))
  | .endBlock wait blocking children, token => by
    rw [Node.map, Node.map, Node.start, Node.start]
    refine (lockstep_delayed wait token).bind fun _ _ hturn => ?_
    refine lockstep_followedBy hturn (.spread blocking children token) (lockstep_onSuccess ?_)
    exact lockstep_together blocking children token (lockstep_startParts children token)
      (lockstep_startMany children true token)
  | .finish child, token => by
    rw [Node.map, Node.map, Node.start, Node.start]
    exact lockstep_nodeStart child token
  | .leaf act, token => by
    rw [Node.map, Node.map, Node.start, Node.start]
    exact lockstep_leafStart act token

/-- Some trees one after another. -/
theorem lockstep_startInTurn : (children : List (Node (TwinPair base))) → (token : CancelToken) →
    LockstepTurn base past (Node.startInTurn (Node.mapList TwinPair.direct children) token)
      (Node.startInTurn (Node.mapList TwinPair.served children) token)
  | [], _ => lockstep_done (.ok rfl)
  | node :: rest, token => by
    rw [Node.mapList, Node.mapList, Node.startInTurn, Node.startInTurn]
    refine (lockstep_nodeStart node token).bind fun _ _ hturn => ?_
    exact lockstep_followedBy hturn (.sequence rest token) (lockstep_onSuccess (lockstep_startInTurn rest token))

/-- Some trees side by side. -/
theorem lockstep_startParts : (children : List (Node (TwinPair base))) → (token : CancelToken) →
    Lockstep base past (PartsTwin base) (Node.startParts (Node.mapList TwinPair.direct children) token)
      (Node.startParts (Node.mapList TwinPair.served children) token)
  | [], _ => lockstep_pure (.ok .nil)
  | node :: rest, token => by
    rw [Node.mapList, Node.mapList, Node.startParts, Node.startParts]
    refine (lockstep_nodeStart node token).bind fun _ _ hturn => ?_
    exact lockstep_collect hturn (lockstep_startParts rest token)

/-- Many trees side by side, each of which is looked at once. -/
theorem lockstep_startMany : (children : List (Node (TwinPair base))) → (finished : Bool) → (token : CancelToken) →
    LockstepTurn base past (Node.startMany finished (Node.mapList TwinPair.direct children) token)
      (Node.startMany finished (Node.mapList TwinPair.served children) token)
  | [], true, _ => lockstep_done (.ok rfl)
  | [], false, _ => lockstep_pure (.waiting .stuck)
  | node :: rest, finished, token => by
    rw [Node.mapList, Node.mapList, Node.startMany, Node.startMany]
    refine (lockstep_nodeStart node token).bind fun _ _ hturn => ?_
    -- A fault ends the turn only if every child before it is over, and then it does so in both runs.
    have hfailed {e e' : MachineError} (h : AnswersAlike (α := Unit) Eq (.error e) (.error e')) :
        LockstepTurn base past
          (if finished then return .done (.error e)
            else Node.startMany false (Node.mapList TwinPair.direct rest) token)
          (if finished then return .done (.error e')
            else Node.startMany false (Node.mapList TwinPair.served rest) token) := by
      split
      · exact lockstep_done h
      · exact lockstep_startMany rest false token
    cases hturn with
    | done hanswer =>
      cases hanswer with
      | ok => exact lockstep_startMany rest finished token
      | cancelled => exact hfailed .cancelled
      | failed he he' => exact hfailed (.failed he he')
    | waiting => exact lockstep_startMany rest false token

/-- The first turn of a block, if there is one. -/
theorem lockstep_startOption : (block : Option (Node (TwinPair base))) → (token : CancelToken) →
    LockstepTurn base past (Node.startOption (Node.mapOption TwinPair.direct block) token)
      (Node.startOption (Node.mapOption TwinPair.served block) token)
  | none, _ => lockstep_done (.ok rfl)
  | some node, token => by
    rw [Node.mapOption, Node.mapOption, Node.startOption, Node.startOption]
    exact lockstep_nodeStart node token

/-- The first turn of a phase. -/
theorem lockstep_phaseStart : (phase : Phase (TwinPair base)) → (index : Nat) → (token : CancelToken) →
    LockstepTurn base past ((phase.map TwinPair.direct).start index token)
      ((phase.map TwinPair.served).start index token)
  | .mk props children atEnd atCut, index, token => by
    have hopen : Matches base (PhaseRun.Twin base)
        (Deed.enter ((Phase.mk props children atEnd atCut).map TwinPair.direct) index token).run
        (Deed.enter ((Phase.mk props children atEnd atCut).map TwinPair.served) index token).run :=
      matches_open _ index token
    rw [Phase.map, Phase.map, Phase.start, Phase.start]
    refine lockstep_unlessCancelled (.done .cancelled) ?_
    refine (lockstep_perform (fun _ h => by cases h) hopen).bind fun run run' hrun => ?_
    have hjoint : run'.joint = run.joint := by cases hrun; rfl
    rw [hjoint]
    refine (lockstep_startInTurn children run.joint).bind fun _ _ hturn => ?_
    refine Lockstep.bind (lockstep_followedBy hturn (.hold props.hold run.joint)
      (lockstep_onSuccess (lockstep_afterChildren props.hold run.joint))) fun _ _ hturn => ?_
    exact lockstep_followedBy hturn (.settle hrun) (lockstep_settle hrun (lockstep_startOption atEnd token))

/-- The first turns of some phases. -/
theorem lockstep_phaseStarts : (phases : List (Phase (TwinPair base))) →
    LockstepStarts base past (Phase.starts (Phase.mapList TwinPair.direct phases))
      (Phase.starts (Phase.mapList TwinPair.served phases))
  | [] => fun _ => .none
  | phase :: rest => by
    rw [Phase.mapList, Phase.mapList, Phase.starts, Phase.starts]
    intro place
    cases place with
    | zero => exact .some fun index token => lockstep_phaseStart phase index token
    | succ place => exact lockstep_phaseStarts rest place

end

theorem lockstep_runStarts {run run' : PatternRun} (h : run.Twin base run') :
    LockstepStarts base past (Phase.starts run.phases) (Phase.starts run'.phases) := by
  cases h with
  | mk props phases => exact lockstep_phaseStarts phases

/-! ### Activities -/

/-- The turn after a part that is over. -/
theorem lockstep_apply {next next' : Continuation} (h : next.Twin base next') {answer answer' : Except MachineError Unit}
    (hanswer : AnswersAlike Eq answer answer') : LockstepTurn base past (next.apply answer) (next'.apply answer') := by
  cases h with
  | sequence rest token => exact lockstep_onSuccess (lockstep_startInTurn rest token) hanswer
  | spread blocking children token =>
    refine lockstep_onSuccess (lockstep_together blocking children token ?_ ?_) hanswer
    · exact lockstep_startParts children token
    · exact lockstep_startMany children true token
  | hold stays token => exact lockstep_onSuccess (lockstep_afterChildren stays token) hanswer
  | settle h =>
    refine lockstep_settle h ?_ hanswer
    cases h with
    | mk phase index token source started =>
      rcases phase with ⟨props, children, atEnd, atCut⟩
      exact lockstep_startOption atEnd token
  | @enterPhase run run' h index =>
    have hstarts : LockstepStarts base past _ _ := lockstep_runStarts h
    have hplace := hstarts index
    simp only [Continuation.apply]
    generalize (Phase.starts run.phases : PatternRun.Starts Watched)[index]? = start,
      (Phase.starts run'.phases : PatternRun.Starts (World.M Activity))[index]? = start' at hplace ⊢
    cases hplace with
    | none => exact lockstep_onSuccess (lockstep_done (.ok rfl)) hanswer
    | some hstart =>
      refine lockstep_onSuccess (lockstep_enter h (hstart index run.token) ?_) hanswer
      exact lockstep_visit h (lockstep_runStarts h) (some index)
  | nextPhase h index => exact lockstep_onSuccess (lockstep_visit h (lockstep_runStarts h) (some index)) hanswer
  | closeBoss boss => exact lockstep_closeBoss boss hanswer
  | expire source =>
    have hexpire : Matches base Eq (Deed.expire source).run (Deed.expire source).run := matches_expire source
    refine lockstep_onSuccess ?_ hanswer
    exact (lockstep_perform (fun _ h => by cases h) hexpire).bind fun _ _ _ => lockstep_done (.ok rfl)
  | advanceTimers token =>
    refine lockstep_onSuccess ?_ hanswer
    refine (lockstep_change matches_passFrame).bind fun _ _ _ => ?_
    refine (lockstep_frames 1 token).bind fun _ _ hturn => ?_
    exact lockstep_followedBy hturn (.advanceTimers token) lockstep_done
  | report => exact (lockstep_change (matches_keepOutcome hanswer)).bind fun _ _ _ => lockstep_done hanswer

mutual

/-- The turn of an activity. -/
theorem Activity.lockstep_turn : {a a' : Activity} → a.Twin base a' → LockstepTurn base past a.turn a'.turn
  | _, _, .start node token => by
    rw [Activity.turn, Activity.turn]
    exact lockstep_nodeStart node token
  | _, _, .frames left token => by
    rw [Activity.turn]
    exact lockstep_frames left token
  | _, _, .condition c token => by
    rw [Activity.turn, Activity.turn]
    exact lockstep_wait (.condition c token)
  | _, _, .cancelled token => by
    rw [Activity.turn]
    exact lockstep_wait (.cancelled token)
  | _, _, .andThen hfirst hnext => by
    rw [Activity.turn, Activity.turn]
    refine (Activity.lockstep_turn hfirst).bind fun _ _ hturn => ?_
    exact lockstep_followedBy hturn hnext (lockstep_apply hnext)
  | _, _, .join h => by
    rw [Activity.turn, Activity.turn]
    exact (Activity.lockstep_turnParts h).bind fun _ _ => lockstep_ofParts
  | _, _, .stuck => lockstep_pure (.waiting .stuck)

/-- The turns of parts that go on side by side. -/
theorem Activity.lockstep_turnParts : {parts parts' : List Activity} → List.Forall₂ (Activity.Twin base) parts parts' →
    Lockstep base past (PartsTwin base) (Activity.turnParts parts) (Activity.turnParts parts')
  | _, _, .nil => lockstep_pure (.ok .nil)
  | _, _, .cons hfirst hrest => by
    rw [Activity.turnParts, Activity.turnParts]
    refine (Activity.lockstep_turn hfirst).bind fun _ _ hturn => ?_
    exact lockstep_collect hturn (Activity.lockstep_turnParts hrest)

end

end Barrage
