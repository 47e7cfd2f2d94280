import Barrage.Proofs.Machine.Watching

/-!
# What turns keep

Every part of a tree looks at a token before it does anything, and hands that token, or one that is linked to
it, to all that it starts. So an activity whose tokens include some token `T` stays so, whatever world it
meets, and so do the tasks that it spawns; and each of its deeds is done while `T` is live. The only deed
without a look of its own is the end of a source whose time is up, which follows a wait within one turn.

The same walk over the trees bounds the tasks that are spawned: each is smaller than the tree it comes from.

## Main definitions

* `Activity.Under`: all that an activity will do is behind a token
* `Note.Live`: a token was live just before a deed

## Main results

* `shows_nodeStart`, `shows_apply`: the first turn of a tree, and the turn after a part that is over
* `Activity.shows_turn`: the turn of an activity
-/

namespace Barrage

/-- What is left after a turn has some property. -/
def Turn.Leaves (A : Activity → Prop) : Turn Activity → Prop
  | .done _ => True
  | .waiting rest => A rest

/-- What is left of parts that go on side by side has some property. -/
def LeavesParts (A : Activity → Prop) : Except MachineError (List Activity) → Prop
  | .error _ => True
  | .ok parts => ∀ part ∈ parts, A part

/-- What follows is behind everything that a token is behind. The report of a run and the end of a boss do
no deeds. -/
def Continuation.Under (T : CancelToken) : Continuation → Prop
  | sequence _ token => token.Includes T
  | spread _ _ token => token.Includes T
  | hold _ token => token.Includes T
  | settle run => run.token.Includes T
  | enterPhase run _ => run.token.Includes T
  | nextPhase run _ => run.token.Includes T
  | closeBoss _ => True
  | expire _ => T.sources = []
  | advanceTimers token => token.Includes T
  | report => True

/-- All that an activity will do is behind everything that a token is behind. -/
inductive Activity.Under (T : CancelToken) : Activity → Prop
  | start {node : Node Callable} {token : CancelToken} (h : token.Includes T) : Under T (.start node token)
  | wait {pause : Wait Callable} (h : pause.token.Includes T) : Under T (.wait pause)
  | andThen {first : Activity} {next : Continuation} (hfirst : Under T first) (hnext : next.Under T) :
    Under T (.andThen first next)
  /-- The end of a source follows a wait within one turn, so that the token of the wait counts. -/
  | timer {frames source : Nat} {token : CancelToken} (h : token.Includes T) :
    Under T (.andThen (.wait (.frames frames token)) (.expire source))
  | join {parts : List Activity} (h : ∀ part ∈ parts, Under T part) : Under T (.join parts)
  | stuck : Under T .stuck

/-- A deed was done while a token was live. -/
def Note.Live (T : CancelToken) (note : Note) : Prop := ¬ T.isCancelled note.before.sources

/-- Activities under a token that start no longer chains of tasks than some number. -/
def Activity.Within (T : CancelToken) (k : Nat) (a : Activity) : Prop := a.Under T ∧ a.rank ≤ k

/-- Activities under a token that start shorter chains of tasks than some number. -/
def Activity.Below (T : CancelToken) (k : Nat) (a : Activity) : Prop := a.Under T ∧ a.rank < k

/-- A turn under a token: its deeds are done while the token is live, and what is left of it and what it
spawns is under the token as well. -/
abbrev ShowsTurn (T : CancelToken) (k : Nat) (P : Machine → Prop) (x : Step Watched)
    (y : Step (World.M Activity)) : Prop :=
  Shows (Activity.Below T k) (Note.Live T) P (Turn.Leaves (Activity.Within T k)) x y

theorem Activity.listRank_le_iff {parts : List Activity} {k : Nat} :
    Activity.listRank parts ≤ k ↔ ∀ part ∈ parts, part.rank ≤ k := by
  induction parts with
  | nil => simp [Activity.listRank]
  | cons part rest ih => rw [Activity.listRank, Nat.max_le, ih, List.forall_mem_cons]

theorem Node.height_le_listHeight {node : Node Callable} {children : List (Node Callable)}
    (h : node ∈ children) : node.height ≤ Node.listHeight children := by
  induction children with
  | nil => cases h
  | cons first rest ih =>
    rw [Node.listHeight]
    rcases List.mem_cons.1 h with rfl | h
    · exact Nat.le_max_left _ _
    · exact Nat.le_trans (ih h) (Nat.le_max_right _ _)

theorem Phase.height_le_listHeight {phase : Phase Callable} {phases : List (Phase Callable)}
    (h : phase ∈ phases) : phase.height ≤ Phase.listHeight phases := by
  induction phases with
  | nil => cases h
  | cons first rest ih =>
    rw [Phase.listHeight]
    rcases List.mem_cons.1 h with rfl | h
    · exact Nat.le_max_left _ _
    · exact Nat.le_trans (ih h) (Nat.le_max_right _ _)

section Turns

variable {T token : CancelToken} {k : Nat} {P : Machine → Prop}

/-! ### Parts of turns -/

theorem shows_done (answer : Except MachineError Unit) :
    ShowsTurn T k P (pure (.done answer)) (pure (.done answer)) :=
  shows_pure trivial

theorem shows_onSuccess {x : Step Watched} {y : Step (World.M Activity)} (h : ShowsTurn T k P x y)
    (answer : Except MachineError Unit) : ShowsTurn T k P (Step.onSuccess x answer) (Step.onSuccess y answer) :=
  match answer with
  | .ok () => h
  | .error _ => shows_done _

/-- A part that is over goes on, and one that is not keeps what follows. -/
theorem shows_followedBy {turn : Turn Activity} {next : Continuation} {x : AnswerStep Watched}
    {y : AnswerStep (World.M Activity)} (hturn : turn.Leaves (Activity.Within T k)) (hnext : next.Under T)
    (hrank : next.rank ≤ k) (h : ∀ answer, ShowsTurn T k P (x answer) (y answer)) :
    ShowsTurn T k P (turn.followedBy next x) (turn.followedBy next y) :=
  match turn with
  | .done answer => h answer
  | .waiting _ => shows_pure ⟨.andThen hturn.1 hnext, Nat.max_le.2 ⟨hturn.2, hrank⟩⟩

/-- A wait looks at its token first. -/
theorem Wait.step_eq {m : Type → Type} [Stage m] [LawfulMonad m] (pause : Wait Callable) :
    pause.step = (Step.unlessCancelled pause.token do
      return (← Wait.liveTurn Callable.holds pause).map .wait : Step m) := by
  simp only [Wait.step, Wait.turn, Step.unlessCancelled, bind_assoc]
  congr 1
  funext cancelled
  cases cancelled with
  | true => simp [Turn.map, Turn.cancelled]
  | false => simp

theorem shows_holds (c : Callable) (htoken : token.Includes T) :
    ShowsTurn T k (fun p => ¬ T.isCancelled p.sources)
      (do return (← Wait.liveTurn Callable.holds (.until c token)).map .wait)
      (do return (← Wait.liveTurn Callable.holds (.until c token)).map .wait) := by
  simp only [Wait.liveTurn, Callable.holds, bind_assoc]
  refine shows_evaluate (fun p hp => hp) fun answer => ?_
  cases answer with
  | error e => exact shows_pure trivial
  | ok value =>
    dsimp only
    rcases value.asBool? with - | - | -
    · exact shows_pure trivial
    · exact shows_pure ⟨.wait htoken, Nat.zero_le _⟩
    · exact shows_pure trivial

theorem shows_wait (pause : Wait Callable) (htoken : pause.token.Includes T) :
    ShowsTurn T k P pause.step pause.step := by
  rw [Wait.step_eq, Wait.step_eq]
  refine shows_unlessCancelled htoken trivial ?_
  cases pause with
  | frames left token =>
    cases left with
    | zero => exact shows_pure trivial
    | succ left => exact shows_pure ⟨.wait htoken, Nat.zero_le _⟩
  | «until» c token => exact shows_holds c htoken
  | cancelled token => exact shows_pure ⟨.wait htoken, Nat.zero_le _⟩

theorem shows_delayed (seconds : Float) (htoken : token.Includes T) :
    ShowsTurn T k P (delayed seconds token) (delayed seconds token) :=
  (shows_change (ensures_look fun _ => rfl)).bind fun _ _ => shows_wait _ htoken

theorem shows_leafStart (leaf : Leaf Callable) (htoken : token.Includes T) :
    ShowsTurn T k P (leaf.start token) (leaf.start token) := by
  refine shows_unlessCancelled htoken trivial ?_
  cases leaf with
  | wait seconds =>
    refine shows_evaluate (fun p hp => hp) fun answer => ?_
    cases answer with
    | error e => exact shows_done _
    | ok value =>
      dsimp only
      cases value.asFloat? with
      | none => exact shows_done _
      | some seconds => exact shows_delayed seconds htoken
  | waitUntil c => exact shows_wait _ htoken
  | emit label value =>
    refine shows_evaluate (fun p hp => hp) fun answer => ?_
    cases answer with
    | error e => exact shows_done _
    | ok value =>
      exact (shows_emit fun p hp => hp).bind fun _ _ => shows_done _
  | shiftPhase =>
    refine (shows_perform rfl (fun p hp => hp) ensures_shiftPhase).bind fun _ _ => ?_
    exact shows_unlessCancelled htoken trivial (shows_done _)

/-- What is left of parts is a join of them, if anything is left. -/
theorem shows_ofParts (answer : Except MachineError (List Activity))
    (hanswer : LeavesParts (Activity.Within T k) answer) :
    ShowsTurn T k P (pure (.ofParts answer)) (pure (.ofParts answer)) := by
  match answer, hanswer with
  | .error _, _ => exact shows_done _
  | .ok [], _ => exact shows_done _
  | .ok (part :: rest), h =>
    exact shows_pure ⟨.join fun a ha => (h a ha).1, Activity.listRank_le_iff.2 fun a ha => (h a ha).2⟩

/-- The children of an action become tasks, or go on as its parts. -/
theorem shows_together {blocking : Bool} {children : List (Node Callable)}
    {parts : Watched (Except MachineError (List Activity))}
    {parts' : World.M Activity (Except MachineError (List Activity))} {many : Step Watched}
    {many' : Step (World.M Activity)} (htoken : token.Includes T) (hrank : Node.listHeight children < k)
    (hparts : Shows (Activity.Below T k) (Note.Live T) P (LeavesParts (Activity.Within T k)) parts parts')
    (hmany : ShowsTurn T k P many many') :
    ShowsTurn T k P (Node.together blocking children token parts many)
      (Node.together blocking children token parts' many') := by
  unfold Node.together
  split
  · split
    · exact hparts.bind shows_ofParts
    · exact hmany
  · refine (shows_change (ensures_forM fun node hnode => ?_)).bind fun _ _ => shows_done _
    exact ensures_spawn ⟨.start htoken, Nat.lt_of_le_of_lt (Node.height_le_listHeight hnode) hrank⟩

/-- What is left of some parts is put in front of what is left of the others. -/
theorem shows_collect {turn : Turn Activity} {x : Watched (Except MachineError (List Activity))}
    {y : World.M Activity (Except MachineError (List Activity))}
    (hturn : turn.Leaves (Activity.Within T k))
    (h : Shows (Activity.Below T k) (Note.Live T) P (LeavesParts (Activity.Within T k)) x y) :
    Shows (Activity.Below T k) (Note.Live T) P (LeavesParts (Activity.Within T k)) (turn.collect x)
      (turn.collect y) := by
  match turn, hturn with
  | .done (.error _), _ => exact shows_pure trivial
  | .done (.ok ()), _ => exact h
  | .waiting part, hpart =>
    refine h.bind fun answer hanswer => shows_pure ?_
    match answer, hanswer with
    | .error _, _ => trivial
    | .ok rest, hrest => exact fun a ha => (List.mem_cons.1 ha).elim (· ▸ hpart) (hrest a)

/-! ### Phases -/

/-- Why the children of a phase are over that were cancelled in some run. -/
def PhaseRun.cutCause (run : PhaseRun) (p : Machine) : ClearCause :=
  if p.shared.hosts.hp p.shared.executor.entity ≤ 0.0 && run.phase.props.hp > 0.0 then .hp
  else if p.sources.isExpired run.source then .timeout
  else .cancelled

theorem PhaseRun.run_cause_cancelled (run : PhaseRun) (p : Machine) :
    (run.cause? (.error .cancelled)).run p = (.ok (run.cutCause p), p) := by
  unfold cutCause
  split <;> rename_i hhp
  · exact congrFun (if_pos hhp) p
  · refine (congrFun (if_neg hhp) p).trans ?_
    split <;> rename_i hexpired
    · exact congrFun (if_pos hexpired) p
    · exact congrFun (if_neg hexpired) p

/-- Finding out why the children of a phase are over changes nothing. -/
theorem PhaseRun.run_cause? (run : PhaseRun) (answer : Except MachineError Unit) (p : Machine) :
    ((run.cause? answer).run p).2 = p := by
  match answer with
  | .ok () => rfl
  | .error .cancelled => rw [run_cause_cancelled]
  | .error (.eval _) => rfl
  | .error (.leafType _ _ _) => rfl
  | .error (.duplicateBlock _) => rfl
  | .error (.stalled _) => rfl

/-- A phase that is opened runs under a token that is linked to that of the pattern around it, and so does
the task that watches its time. -/
theorem ensures_open (phase : Phase Callable) (index : Nat) (htoken : token.Includes T) (hk : 0 < k) :
    Ensures (Activity.Below T k) P (fun run => run.phase = phase ∧ run.token = token)
      (PhaseRun.open phase index token) := by
  refine (ensures_serve _).andThen fun _ => ensures_get.andThen fun p => ?_
  refine ensures_when (ensures_updateHosts _) fun _ => ensures_when (ensures_serve _) fun _ => ?_
  refine (ensures_setHp _).andThen fun _ => ?_
  refine ensures_when (ensures_updateCampaign fun _ => List.prefix_refl _) fun _ => ?_
  refine (ensures_emit rfl).andThen fun _ => ensures_makeSource.andThen fun source => ?_
  refine Ensures.andThen (ensures_updateExecutor fun _ => rfl) fun _ => ?_
  refine ensures_get.andThen fun q => ensures_ite ?_ (ensures_pure ⟨rfl, rfl⟩)
  refine (ensures_look fun _ => rfl).andThen fun frames => ?_
  refine Ensures.andThen (ensures_spawn ?_) fun _ => ensures_pure ⟨rfl, rfl⟩
  exact ⟨.timer fun source h => PhaseRun.joint_includes _ source (htoken source h), hk⟩

/-- When a phase is settled, only what it leaves behind is spawned. -/
theorem ensures_conclude {run : PhaseRun} (answer : Except MachineError Unit)
    (htoken : run.token.Includes T) (hrank : run.phase.height ≤ k) :
    Ensures (Activity.Below T k) P (fun _ => True) (run.conclude answer) := by
  refine Ensures.andThen (ensures_updateExecutor fun _ => rfl) fun _ => ?_
  refine ensures_when (ensures_updateCampaign fun _ => List.prefix_refl _) fun _ => ?_
  refine (ensures_look (run.run_cause? answer)).andThen fun cause => ?_
  cases cause with
  | error e => exact (ensures_cancel _).andThen fun _ => ensures_pure trivial
  | ok cause =>
    have hreport : ∀ P, Ensures (Activity.Below T k) P (fun _ => True) (do
        run.report cause
        return Except.ok (ε := MachineError) ()) := fun P => by
      refine Ensures.andThen (ensures_get.andThen fun p => ?_) fun _ => ensures_pure trivial
      refine Ensures.andThen (ensures_updateCampaign fun _ => List.prefix_append _ _) fun _ => ?_
      exact (ensures_emit rfl).andThen fun _ => ensures_serve _
    refine (ensures_cancel _).andThen fun _ => ensures_when (ensures_serve _) fun _ => ?_
    refine ensures_get.andThen fun p => ensures_ite ?_ (hreport _)
    rcases hphase : run.phase with ⟨props, children, atEnd, atCut⟩
    dsimp only [Phase.atCut]
    cases atCut with
    | none => exact hreport _
    | some node =>
      refine Ensures.andThen (ensures_spawn ⟨.start htoken, ?_⟩) fun _ => hreport _
      rw [hphase, Phase.height, Node.optionHeight] at hrank
      rw [Activity.rank]
      omega

/-- The end of a phase, and the block that follows it. -/
theorem shows_settle {run : PhaseRun} {x : Step Watched} {y : Step (World.M Activity)}
    (htoken : run.token.Includes T) (hrank : run.phase.height ≤ k)
    (h : ShowsTurn T k (fun _ => True) x y) (answer : Except MachineError Unit) :
    ShowsTurn T k P (run.settle x answer) (run.settle y answer) := by
  refine (shows_change (ensures_conclude answer htoken hrank)).bind fun outcome _ => ?_
  match outcome with
  | .error _ => exact shows_done _
  | .ok () => exact shows_unlessCancelled htoken trivial (h.mono (fun _ _ => trivial) fun _ h => h)

theorem shows_afterChildren {hold : Bool} (htoken : token.Includes T) :
    ShowsTurn T k P (PhaseRun.afterChildren hold token) (PhaseRun.afterChildren hold token) := by
  unfold PhaseRun.afterChildren
  split
  · exact shows_wait _ htoken
  · exact shows_unlessCancelled htoken trivial (shows_done _)

/-! ### Patterns -/

/-- The phases of a pattern, each of which can start under a token. -/
def ShowsStarts (T : CancelToken) (k : Nat) (starts : PatternRun.Starts Watched)
    (starts' : PatternRun.Starts (World.M Activity)) : Prop :=
  ∀ place : Nat, Option.Rel
    (fun start start' => ∀ index token, token.Includes T →
      ShowsTurn T k (fun _ => True) (start index token) (start' index token))
    starts[place]? starts'[place]?

theorem ensures_announce (run : PatternRun) (index : Nat) {S : Activity → Prop} :
    Ensures S P (fun _ => True) (run.announce index) := by
  unfold PatternRun.announce
  cases run.props.bgms[index]? with
  | none => exact ensures_ite (ensures_serve _) (ensures_pure trivial)
  | some track =>
    exact (ensures_serve _).andThen fun _ => ensures_ite (ensures_serve _) (ensures_pure trivial)

theorem ensures_nextPhase (current : Option Nat) {S : Activity → Prop} :
    Ensures S P (fun _ => True) (World.nextPhase current : World.M Activity (Option Nat)) :=
  ensures_get.andThen fun _ =>
    Ensures.andThen (ensures_updateExecutor fun _ => rfl) fun _ => ensures_pure trivial

theorem shows_enter {run : PatternRun} {index : Nat} {start : Nat → CancelToken → Step Watched}
    {start' : Nat → CancelToken → Step (World.M Activity)} {others : Step Watched}
    {others' : Step (World.M Activity)} (htoken : run.token.Includes T)
    (hrank : Phase.listHeight run.phases ≤ k)
    (hstart : ShowsTurn T k (fun _ => True) (start index run.token) (start' index run.token))
    (hothers : ShowsTurn T k (fun _ => True) others others') :
    ShowsTurn T k P (run.enter index start others) (run.enter index start' others') := by
  refine shows_unlessCancelled htoken trivial ?_
  refine (shows_change (ensures_announce run index)).bind fun _ _ => hstart.bind fun turn hturn => ?_
  exact shows_followedBy hturn htoken hrank (shows_onSuccess hothers)

theorem shows_visit {run : PatternRun} {starts : PatternRun.Starts Watched}
    {starts' : PatternRun.Starts (World.M Activity)} (htoken : run.token.Includes T)
    (hrank : Phase.listHeight run.phases ≤ k) (hstarts : ShowsStarts T k starts starts')
    (current : Option Nat) : ShowsTurn T k P (run.visit starts current) (run.visit starts' current) := by
  unfold PatternRun.visit
  generalize 2 * run.phases.length + 1 = count
  induction count generalizing current P with
  | zero => exact shows_done _
  | succ count ih =>
    refine (shows_change (ensures_nextPhase current)).bind fun next _ => ?_
    cases next with
    | none => exact shows_done _
    | some index =>
      have hplace := hstarts index
      dsimp only
      cases run.phases[index]? with
      | none => exact shows_done _
      | some phase =>
        generalize starts[index]? = start, starts'[index]? = start' at hplace ⊢
        cases hplace with
        | none => exact shows_done _
        | some hstart =>
          have hothers := ih (P := fun _ => True) (some index)
          dsimp only
          split
          · exact hothers.mono (fun _ _ => trivial) fun _ h => h
          refine (shows_change ensures_get).bind fun p _ => ?_
          cases p.shared.bufferFrames with
          | zero => exact shows_enter htoken hrank (hstart index run.token htoken) hothers
          | succ frames =>
            refine (shows_wait (.frames _ run.token) htoken).bind fun turn hturn => ?_
            refine shows_followedBy hturn htoken hrank (shows_onSuccess ?_)
            exact shows_enter htoken hrank (hstart index run.token htoken) hothers

theorem shows_closeBoss (boss : Boss) (answer : Except MachineError Unit) :
    ShowsTurn T k P (PatternRun.closeBoss boss answer) (PatternRun.closeBoss boss answer) := by
  have hdismiss : Ensures (Activity.Below T k) P (fun _ => True) (PatternRun.dismissBoss boss) :=
    (ensures_serve _).andThen fun _ => ensures_updateCampaign fun _ => List.prefix_refl _
  exact (shows_change hdismiss).bind fun _ _ => shows_done _

theorem shows_patternStart (run : PatternRun) {starts : PatternRun.Starts Watched}
    {starts' : PatternRun.Starts (World.M Activity)} (htoken : run.token.Includes T)
    (hrank : Phase.listHeight run.phases ≤ k) (hstarts : ShowsStarts T k starts starts') :
    ShowsTurn T k P (run.start starts) (run.start starts') := by
  unfold PatternRun.start
  cases run.props.boss with
  | none => exact shows_visit htoken hrank hstarts none
  | some boss =>
    have hopen : Ensures (Activity.Below T k) P (fun _ => True) (PatternRun.openBoss boss) :=
      ensures_updateCampaign fun _ => List.prefix_refl _
    refine (shows_change hopen).bind fun _ _ => ?_
    refine (shows_visit htoken hrank hstarts none).bind fun turn hturn => ?_
    exact shows_followedBy hturn trivial (Nat.zero_le _) (shows_closeBoss boss)

/-! ### Trees -/

mutual

/-- The first turn of a tree. -/
theorem shows_nodeStart : (node : Node Callable) → (token : CancelToken) → token.Includes T →
    node.height ≤ k → ShowsTurn T k (fun _ => True) (node.start token) (node.start token)
  | .pattern props phases, token, htoken, hrank => by
    rw [Node.height] at hrank
    rw [Node.start, Node.start]
    exact shows_patternStart ⟨props, phases, token⟩ htoken (Nat.le_of_succ_le hrank)
      (shows_phaseStarts phases (Nat.le_of_succ_le hrank))
  | .phase phase, token, htoken, hrank => by
    rw [Node.height] at hrank
    rw [Node.start, Node.start]
    exact shows_phaseStart phase 0 token htoken (Nat.le_of_succ_le hrank)
  | .action wait blocking children, token, htoken, hrank => by
    rw [Node.height] at hrank
    rw [Node.start, Node.start]
    refine (shows_delayed wait htoken).bind fun turn hturn => ?_
    refine shows_followedBy hturn htoken hrank (shows_onSuccess ?_)
    exact shows_together htoken hrank (shows_startParts children token htoken (Nat.le_of_succ_le hrank))
      (shows_startMany children true token htoken (Nat.le_of_succ_le hrank))
  | .sequence wait children, token, htoken, hrank => by
    rw [Node.height] at hrank
    rw [Node.start, Node.start]
    refine (shows_delayed wait htoken).bind fun turn hturn => ?_
    exact shows_followedBy hturn htoken (Nat.le_of_succ_le hrank)
      (shows_onSuccess (shows_startInTurn children token htoken (Nat.le_of_succ_le hrank)))
  | .endBlock wait blocking children, token, htoken, hrank => by
    rw [Node.height] at hrank
    rw [Node.start, Node.start]
    refine (shows_delayed wait htoken).bind fun turn hturn => ?_
    refine shows_followedBy hturn htoken hrank (shows_onSuccess ?_)
    exact shows_together htoken hrank (shows_startParts children token htoken (Nat.le_of_succ_le hrank))
      (shows_startMany children true token htoken (Nat.le_of_succ_le hrank))
  | .finish child, token, htoken, hrank => by
    rw [Node.height] at hrank
    rw [Node.start, Node.start]
    exact shows_nodeStart child token htoken (Nat.le_of_succ_le hrank)
  | .leaf leaf, token, htoken, _ => by
    rw [Node.start, Node.start]
    exact shows_leafStart leaf htoken

/-- Some trees one after another. -/
theorem shows_startInTurn : (children : List (Node Callable)) → (token : CancelToken) → token.Includes T →
    Node.listHeight children ≤ k →
    ShowsTurn T k (fun _ => True) (Node.startInTurn children token) (Node.startInTurn children token)
  | [], _, _, _ => shows_done _
  | node :: rest, token, htoken, hrank => by
    rw [Node.listHeight, Nat.max_le] at hrank
    rw [Node.startInTurn, Node.startInTurn]
    refine (shows_nodeStart node token htoken hrank.1).bind fun turn hturn => ?_
    exact shows_followedBy hturn htoken hrank.2 (shows_onSuccess (shows_startInTurn rest token htoken hrank.2))

/-- Some trees side by side. -/
theorem shows_startParts : (children : List (Node Callable)) → (token : CancelToken) → token.Includes T →
    Node.listHeight children ≤ k →
    Shows (Activity.Below T k) (Note.Live T) (fun _ => True) (LeavesParts (Activity.Within T k))
      (Node.startParts children token) (Node.startParts children token)
  | [], _, _, _ => shows_pure (by simp [LeavesParts])
  | node :: rest, token, htoken, hrank => by
    rw [Node.listHeight, Nat.max_le] at hrank
    rw [Node.startParts, Node.startParts]
    refine (shows_nodeStart node token htoken hrank.1).bind fun turn hturn => ?_
    exact shows_collect hturn (shows_startParts rest token htoken hrank.2)

/-- Many trees side by side, each of which is looked at once. -/
theorem shows_startMany : (children : List (Node Callable)) → (finished : Bool) → (token : CancelToken) →
    token.Includes T → Node.listHeight children ≤ k →
    ShowsTurn T k (fun _ => True) (Node.startMany finished children token)
      (Node.startMany finished children token)
  | [], true, _, _, _ => shows_done _
  | [], false, _, _, _ => shows_pure ⟨.stuck, Nat.zero_le _⟩
  | node :: rest, finished, token, htoken, hrank => by
    rw [Node.listHeight, Nat.max_le] at hrank
    rw [Node.startMany, Node.startMany]
    refine (shows_nodeStart node token htoken hrank.1).bind fun turn _ => ?_
    match turn, finished with
    | .done (.ok ()), _ => exact shows_startMany rest _ token htoken hrank.2
    | .done (.error _), true => exact shows_done _
    | .done (.error _), false => exact shows_startMany rest false token htoken hrank.2
    | .waiting _, _ => exact shows_startMany rest false token htoken hrank.2

/-- The first turn of a block, if there is one. -/
theorem shows_startOption : (block : Option (Node Callable)) → (token : CancelToken) → token.Includes T →
    Node.optionHeight block ≤ k →
    ShowsTurn T k (fun _ => True) (Node.startOption block token) (Node.startOption block token)
  | none, _, _, _ => shows_done _
  | some node, token, htoken, hrank => by
    rw [Node.optionHeight] at hrank
    rw [Node.startOption, Node.startOption]
    exact shows_nodeStart node token htoken hrank

/-- The first turn of a phase. -/
theorem shows_phaseStart : (phase : Phase Callable) → (index : Nat) → (token : CancelToken) →
    token.Includes T → phase.height ≤ k →
    ShowsTurn T k (fun _ => True) (phase.start index token) (phase.start index token)
  | .mk props children atEnd atCut, index, token, htoken, hrank => by
    have hparts := hrank
    rw [Phase.height] at hparts
    have hchildren : Node.listHeight children ≤ k := by omega
    have hatEnd : Node.optionHeight atEnd ≤ k := by omega
    rw [Phase.start, Phase.start]
    refine shows_unlessCancelled htoken trivial ?_
    refine (shows_perform rfl (fun p hp => hp) (ensures_open _ index htoken (by omega))).bind fun run hrun => ?_
    have hrunToken : run.token.Includes T := hrun.2 ▸ htoken
    have hjoint : run.joint.Includes T := fun source h => run.joint_includes source (hrunToken source h)
    refine (shows_startInTurn children run.joint hjoint hchildren).bind fun turn hturn => ?_
    have hrunRank : run.phase.height ≤ k := hrun.1 ▸ hrank
    have hhold : (Continuation.hold props.hold run.joint).Under T := hjoint
    refine Shows.bind (shows_followedBy hturn hhold (Nat.zero_le _)
      (shows_onSuccess (shows_afterChildren hjoint))) fun turn hturn => ?_
    exact shows_followedBy hturn hrunToken hrunRank
      (shows_settle hrunToken hrunRank (shows_startOption atEnd token htoken hatEnd))

/-- The first turns of some phases. -/
theorem shows_phaseStarts : (phases : List (Phase Callable)) → Phase.listHeight phases ≤ k →
    ShowsStarts T k (Phase.starts phases) (Phase.starts phases)
  | [], _ => fun _ => .none
  | phase :: rest, hrank => by
    rw [Phase.listHeight, Nat.max_le] at hrank
    rw [Phase.starts, Phase.starts]
    intro place
    cases place with
    | zero => exact .some fun index token htoken => shows_phaseStart phase index token htoken hrank.1
    | succ place => exact shows_phaseStarts rest hrank.2 place

end

/-! ### Activities -/

/-- The end of a source that follows a wait without a turn in between: the look of the wait counts. -/
theorem shows_timer {frames source : Nat} (htoken : token.Includes T) :
    ShowsTurn T k P (Activity.andThen (.wait (.frames frames token)) (.expire source)).turn
      (Activity.andThen (.wait (.frames frames token)) (.expire source)).turn := by
  have hturn : ∀ {m : Type → Type} [Stage m] [LawfulMonad m],
      (Activity.andThen (.wait (.frames frames token)) (.expire source)).turn =
        (Step.unlessCancelled token do
          let turn ← Wait.liveTurn Callable.holds (.frames frames token)
          (turn.map Activity.wait).followedBy (.expire source) (Continuation.apply (.expire source)) : Step m) := by
    intro m _ _
    rw [Activity.turn, Activity.turn, Wait.step_eq]
    simp only [Step.unlessCancelled, Wait.token, bind_assoc]
    congr 1
    funext cancelled
    cases cancelled with
    | true => simp [Turn.followedBy, Turn.cancelled, Continuation.apply, Step.onSuccess]
    | false => simp
  rw [hturn, hturn]
  refine shows_unlessCancelled htoken trivial ?_
  cases frames with
  | zero =>
    simp only [Wait.liveTurn, pure_bind, Turn.map, Turn.finished, Turn.followedBy, Continuation.apply, Step.onSuccess]
    exact (shows_perform rfl (fun p hp => hp) (ensures_expire source)).bind fun _ _ => shows_done _
  | succ left =>
    simp only [Wait.liveTurn, pure_bind, Turn.map, Turn.followedBy]
    exact shows_pure ⟨.timer htoken, Nat.zero_le _⟩

/-- The turn after a part that is over. -/
theorem shows_apply {next : Continuation} (hnext : next.Under T) (hrank : next.rank ≤ k)
    (answer : Except MachineError Unit) :
    ShowsTurn T k (fun _ => True) (next.apply answer) (next.apply answer) := by
  cases next with
  | sequence rest token => exact shows_onSuccess (shows_startInTurn rest token hnext hrank) answer
  | spread blocking children token =>
    refine shows_onSuccess (shows_together hnext hrank ?_ ?_) answer
    · exact shows_startParts children token hnext (Nat.le_of_succ_le hrank)
    · exact shows_startMany children true token hnext (Nat.le_of_succ_le hrank)
  | hold stays token => exact shows_onSuccess (shows_afterChildren hnext) answer
  | settle run =>
    refine shows_settle hnext hrank (shows_startOption _ run.token hnext ?_) answer
    rcases hphase : run.phase with ⟨props, children, atEnd, atCut⟩
    rw [Continuation.rank, hphase, Phase.height] at hrank
    rw [Phase.atEnd]
    omega
  | enterPhase run index =>
    have hstarts := shows_phaseStarts (T := T) run.phases hrank
    have hplace := hstarts index
    simp only [Continuation.apply]
    generalize (Phase.starts run.phases : PatternRun.Starts Watched)[index]? = start,
      (Phase.starts run.phases : PatternRun.Starts (World.M Activity))[index]? = start' at hplace ⊢
    cases hplace with
    | none => exact shows_onSuccess (shows_done _) answer
    | some hstart =>
      refine shows_onSuccess (shows_enter hnext hrank (hstart index run.token hnext) ?_) answer
      exact shows_visit hnext hrank hstarts (some index)
  | nextPhase run index =>
    exact shows_onSuccess (shows_visit hnext hrank (shows_phaseStarts run.phases hrank) (some index)) answer
  | closeBoss boss => exact shows_closeBoss boss answer
  | expire source =>
    refine shows_onSuccess ?_ answer
    have hlive : ∀ p : Machine, ¬ T.isCancelled p.sources := by
      simp [CancelToken.isCancelled, show T.sources = [] from hnext]
    exact (shows_perform rfl (fun p _ => hlive p) (ensures_expire source)).bind fun _ _ => shows_done _
  | advanceTimers token =>
    refine shows_onSuccess ?_ answer
    have hpass : Ensures (Activity.Below T k) (fun _ => True) (fun _ => True) World.passFrame :=
      ensures_get.andThen fun _ => ensures_updateHosts _
    refine (shows_change hpass).bind fun _ _ => ?_
    refine (shows_wait (.frames 1 token) hnext).bind fun turn hturn => ?_
    exact shows_followedBy hturn (show (Continuation.advanceTimers token).Under T from hnext) hrank shows_done
  | report =>
    have hkeep : Ensures (Activity.Below T k) (fun _ => True) (fun _ => True) (World.keepOutcome answer) :=
      ensures_update (fun _ => quietlyAdds_refl _) fun _ => List.prefix_refl _
    exact (shows_change hkeep).bind fun _ _ => shows_done _

mutual

/-- The turn of an activity. -/
theorem Activity.shows_turn : (a : Activity) → a.Within T k → ShowsTurn T k (fun _ => True) a.turn a.turn
  | .start node token, ⟨.start htoken, hrank⟩ => shows_nodeStart node token htoken hrank
  | .wait pause, ⟨.wait htoken, _⟩ => shows_wait _ htoken
  | .andThen first next, ⟨hunder, hrank⟩ => by
    rw [Activity.rank, Nat.max_le] at hrank
    cases hunder with
    | andThen hfirst hnext =>
      rw [Activity.turn, Activity.turn]
      refine (Activity.shows_turn first ⟨hfirst, hrank.1⟩).bind fun turn hturn => ?_
      exact shows_followedBy hturn hnext hrank.2 (shows_apply hnext hrank.2)
    | timer htoken => exact shows_timer htoken
  | .join parts, ⟨.join hparts, hrank⟩ => by
    rw [Activity.turn, Activity.turn]
    refine (Activity.shows_turnParts parts fun a ha => ⟨hparts a ha, ?_⟩).bind fun answer hanswer => ?_
    · exact Activity.listRank_le_iff.1 hrank a ha
    · exact shows_ofParts answer hanswer
  | .stuck, _ => shows_pure ⟨.stuck, Nat.zero_le _⟩

/-- The turns of parts that go on side by side. -/
theorem Activity.shows_turnParts : (parts : List Activity) → (∀ a ∈ parts, a.Within T k) →
    Shows (Activity.Below T k) (Note.Live T) (fun _ => True) (LeavesParts (Activity.Within T k))
      (Activity.turnParts parts) (Activity.turnParts parts)
  | [], _ => shows_pure (by simp [LeavesParts])
  | part :: rest, hparts => by
    rw [Activity.turnParts, Activity.turnParts]
    refine (Activity.shows_turn part (hparts part List.mem_cons_self)).bind fun turn hturn => ?_
    exact shows_collect hturn (Activity.shows_turnParts rest fun a ha => hparts a (List.mem_cons_of_mem part ha))

end

end Turns

end Barrage
