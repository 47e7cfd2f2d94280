import Barrage.Proofs.Machine.PhaseTimers

/-!
# Turns that keep the timers on time

The timers are on time in every turn of what comes of a pattern: the entry of a phase restarts them in the frame that
it is noted in, and nothing else touches them. The walk goes over the trees, and the two ends of a phase are the places
where something happens to the run. What a turn leaves and what it spawns comes of the pattern as well, the blocks for
the end and the cut of a phase and the tasks that are detached like all others.

## Main results

* `keeps_open`: the entry of a phase
* `keeps_nodeStart`, `keeps_apply`: the first turn of a tree, and the turn after a part that is over
* `Activity.keeps_turn`: the turn of an activity
-/

namespace Barrage

variable {pace : Pace} {frame : Nat} {past : List Note}

/-- A turn that keeps the timers on time and leaves something that comes of a pattern. -/
abbrev KeepsTurn (pace : Pace) (frame : Nat) (past : List Note) (x : Step Watched) : Prop :=
  KeepsTime pace frame past (Turn.Leaves Activity.Scripted) x

/-! ### Parts of turns -/

theorem keeps_done (answer : Except MachineError Unit) : KeepsTurn pace frame past (pure (.done answer)) :=
  keeps_pure trivial

theorem keeps_onSuccess {x : Step Watched} (h : KeepsTurn pace frame past x) (answer : Except MachineError Unit) :
    KeepsTurn pace frame past (Step.onSuccess x answer) :=
  match answer with
  | .ok () => h
  | .error _ => keeps_done _

/-- A part that is over goes on, and one that is not keeps what follows. -/
theorem keeps_followedBy {turn : Turn Activity} {next : Continuation} {x : AnswerStep Watched}
    (hturn : turn.Leaves Activity.Scripted) (hnext : next.Scripted)
    (h : ∀ answer, KeepsTurn pace frame past (x answer)) : KeepsTurn pace frame past (turn.followedBy next x) :=
  match turn with
  | .done answer => h answer
  | .waiting _ => keeps_pure (.andThen hturn hnext)

theorem keeps_evaluate {c : Callable} {code : Code} (h : c.body = .code code) :
    KeepsTime pace frame past (fun _ => True) (Stage.perform (.evaluate c)) :=
  keeps_perform rfl (bides_invoke h)

theorem keeps_holds {c : Callable} {code : Code} (h : c.body = .code code) (token : CancelToken) :
    KeepsTurn pace frame past (do return (← Wait.liveTurn Callable.holds (.until c token)).map .wait) := by
  simp only [Wait.liveTurn, Callable.holds, bind_assoc]
  refine (keeps_evaluate h).bind fun answer _ => ?_
  cases answer with
  | error e => exact keeps_pure trivial
  | ok value =>
    dsimp only
    rcases value.asBool? with - | - | -
    · exact keeps_pure trivial
    · exact keeps_pure (.condition h)
    · exact keeps_pure trivial

theorem keeps_wait {pause : Wait Callable} (h : (Activity.wait pause).Scripted) :
    KeepsTurn pace frame past pause.step := by
  rw [Wait.step_eq]
  refine keeps_unlessCancelled trivial ?_
  cases h with
  | @frames left token =>
    cases left with
    | zero => exact keeps_pure trivial
    | succ left => exact keeps_pure .frames
  | condition h => exact keeps_holds h _
  | cancelled => exact keeps_pure .cancelled

theorem keeps_frames (left : Nat) (token : CancelToken) :
    KeepsTurn pace frame past (Wait.frames left token : Wait Callable).step :=
  keeps_wait .frames

theorem keeps_delayed (seconds : Float) (token : CancelToken) : KeepsTurn pace frame past (delayed seconds token) :=
  (keeps_change (bides_look fun _ => rfl)).bind fun _ _ => keeps_frames _ token

theorem keeps_leafStart {act : Leaf Callable} (h : Coded act.expressions) (token : CancelToken) :
    KeepsTurn pace frame past (act.start token) := by
  refine keeps_unlessCancelled trivial ?_
  cases act with
  | wait seconds =>
    obtain ⟨code, hcode⟩ := h _ (List.mem_singleton_self _)
    refine (keeps_evaluate hcode).bind fun answer _ => ?_
    cases answer with
    | error e => exact keeps_done _
    | ok value =>
      dsimp only
      cases value.asFloat? with
      | none => exact keeps_done _
      | some seconds => exact keeps_delayed seconds token
  | waitUntil c =>
    obtain ⟨code, hcode⟩ := h _ (List.mem_singleton_self _)
    exact keeps_wait (.condition hcode)
  | emit label value =>
    obtain ⟨code, hcode⟩ := h _ (List.mem_singleton_self _)
    refine (keeps_evaluate hcode).bind fun answer _ => ?_
    cases answer with
    | error e => exact keeps_done _
    | ok value => exact (keeps_perform (Q := fun _ => True) rfl (bides_emit _)).bind fun _ _ => keeps_done _
  | shiftPhase =>
    refine (keeps_perform (Q := fun _ => True) rfl bides_shiftPhase).bind fun _ _ => ?_
    exact keeps_unlessCancelled trivial (keeps_done _)

/-- What is left of parts is a join of them, if anything is left. -/
theorem keeps_ofParts (answer : Except MachineError (List Activity)) (hanswer : LeavesParts Activity.Scripted answer) :
    KeepsTurn pace frame past (pure (.ofParts answer)) := by
  match answer, hanswer with
  | .error _, _ => exact keeps_done _
  | .ok [], _ => exact keeps_done _
  | .ok (_ :: _), h => exact keeps_pure (.join h)

/-- The children of an action become tasks, or go on as its parts. -/
theorem keeps_together {blocking : Bool} {children : List (Node Callable)} (token : CancelToken)
    {parts : Watched (Except MachineError (List Activity))} {many : Step Watched}
    (h : Coded (Node.expressionsList children))
    (hparts : KeepsTime pace frame past (LeavesParts Activity.Scripted) parts)
    (hmany : KeepsTurn pace frame past many) :
    KeepsTurn pace frame past (Node.together blocking children token parts many) := by
  unfold Node.together
  split
  · split
    · exact hparts.bind keeps_ofParts
    · exact hmany
  · refine (keeps_change (bides_forM fun node hnode => ?_)).bind fun _ _ => keeps_done _
    exact bides_spawn (.start (h.node_of_mem hnode))

/-- What is left of some parts is put in front of what is left of the others. -/
theorem keeps_collect {turn : Turn Activity} {x : Watched (Except MachineError (List Activity))}
    (hturn : turn.Leaves Activity.Scripted) (h : KeepsTime pace frame past (LeavesParts Activity.Scripted) x) :
    KeepsTime pace frame past (LeavesParts Activity.Scripted) (turn.collect x) := by
  match turn, hturn with
  | .done (.error _), _ => exact keeps_pure trivial
  | .done (.ok ()), _ => exact h
  | .waiting part, hpart =>
    refine h.bind fun answer hanswer => keeps_pure ?_
    match answer, hanswer with
    | .error _, _ => trivial
    | .ok rest, hrest => exact fun a ha => (List.mem_cons.1 ha).elim (· ▸ hpart) (hrest a)

/-! ### Phases -/

/-- What the entry of a phase makes of the hosts and the services. -/
theorem PhaseRun.run_open_restarting (phase : Phase Callable) (index : Nat) (token : CancelToken) {p : Machine}
    (h : p.shared.services.restartTimers = true) :
    ∃ hosts services, (PhaseRun.open phase index token).run p =
        (opened phase index token p, (opened phase index token p).afterOpen hosts services p) ∧
      hosts.timers = p.shared.hosts.restart.timers ∧ services.restartTimers = true := by
  dsimp only [opened, afterOpen]
  unfold PhaseRun.open World.serve World.updateHosts World.setHp World.updateCampaign World.emit
    World.updateExecutor
  simp only [run_update, run_update_when, run_get, run_makeSource, h]
  cases phase.props.lenient <;> cases phase.props.cutin <;>
    split <;> first | exact ⟨_, _, rfl, rfl, by simp⟩ | (rw [List.append_nil]; exact ⟨_, _, rfl, rfl, by simp⟩)

/-- The entry of a phase sets all timers to zero, in the frame that it is noted in. -/
theorem keeps_open (phase : Phase Callable) (index : Nat) (token : CancelToken) :
    KeepsTime pace frame past (fun run : PhaseRun => run.phase = phase ∧ run.source ≠ 0)
      (Stage.perform (.enter phase index token)) := by
  intro notes p hp
  obtain ⟨hosts, services, hrun, htimers, hrestarts⟩ := PhaseRun.run_open_restarting phase index token hp.restarts
  have hperform : ((Stage.perform (.enter phase index token) : Watched PhaseRun).run notes).run p =
      ((((PhaseRun.open phase index token).run p).1, notes ++ [⟨.enter phase index token, p⟩]),
        ((PhaseRun.open phase index token).run p).2) := rfl
  obtain ⟨hlength, -⟩ := List.getElem?_eq_some_iff.1 hp.live
  have hsource : p.sources.states.length ≠ 0 := Nat.ne_of_gt hlength
  have hnames : hosts.timerNames = pace.names := by
    rw [← hp.names, ← p.shared.hosts.timerNames_restart]
    exact congrArg (List.map Timer.name) htimers
  have hstand : hosts.Stand pace.frameTime 0 := by
    unfold Hosts.Stand
    rw [htimers]
    exact Hosts.stand_restart _ _
  rw [hperform, hrun, ← List.append_assoc]
  refine ⟨⟨⟨hp.clock, hrestarts, ?_, ?_, hnames, ?_⟩, fun start hstart => ?_, ?_⟩, rfl, hsource⟩
  · exact (List.getElem?_append_left hlength).trans hp.live
  · exact fun h => hsource (Option.some.inj h)
  · refine List.forall_mem_append.2 ⟨hp.spawned, ?_⟩
    split
    · exact List.forall_mem_singleton.2 (.andThen .frames hsource)
    · exact List.forall_mem_nil _
  · have hentry : Note.entry ⟨.enter phase index token, p⟩ = some frame :=
      (if_pos rfl).trans (congrArg (fun clock : FrameClock => some clock.frame) hp.clock)
    rw [latestEntry_concat, hentry, Option.some_or, Option.some.injEq] at hstart
    rw [← hstart, Nat.sub_self]
    exact ⟨Nat.le_refl _, hstand⟩
  · exact hp.timely.concat (hp.timely_note _)

/-- When a phase is settled, only what it leaves behind is spawned. -/
theorem bides_conclude {run : PhaseRun} (answer : Except MachineError Unit) (h : Coded run.phase.expressions)
    (hsource : run.source ≠ 0) : Bides pace frame (fun _ => True) (run.conclude answer) := by
  refine Bides.andThen (bides_update (fun _ => rfl) (fun _ => rfl) fun _ _ => nofun) fun _ => ?_
  refine bides_when (bides_updateCampaign _) ?_
  refine (bides_look (run.run_cause? answer)).andThen fun cause => ?_
  cases cause with
  | error e => exact (bides_cancel hsource).andThen fun _ => bides_pure trivial
  | ok cause =>
    have hreport : Bides pace frame (fun _ => True) (do
        run.report cause
        return Except.ok (ε := MachineError) ()) := by
      refine Bides.andThen (bides_get.andThen fun p => ?_) fun _ => bides_pure trivial
      exact (bides_updateCampaign _).andThen fun _ => (bides_emit _).andThen fun _ => bides_serve _
    refine (bides_cancel hsource).andThen fun _ => bides_when (bides_serve _) ?_
    refine bides_get.andThen fun p => ?_
    split
    · rcases hphase : run.phase with ⟨props, children, atEnd, atCut⟩
      dsimp only [Phase.atCut]
      cases atCut with
      | none => exact hreport
      | some node =>
        rw [hphase, Phase.expressions, coded_append, coded_append] at h
        exact Bides.andThen (bides_spawn (.start h.2.2)) fun _ => hreport
    · exact hreport

/-- The end of a phase, and the block that follows it. -/
theorem keeps_settle {run : PhaseRun} {x : Step Watched} (h : Coded run.phase.expressions) (hsource : run.source ≠ 0)
    (hx : KeepsTurn pace frame past x) (answer : Except MachineError Unit) :
    KeepsTurn pace frame past (run.settle x answer) := by
  refine (keeps_change (bides_conclude answer h hsource)).bind fun outcome _ => ?_
  match outcome with
  | .error _ => exact keeps_done _
  | .ok () => exact keeps_unlessCancelled trivial hx

theorem keeps_afterChildren (hold : Bool) (token : CancelToken) :
    KeepsTurn pace frame past (PhaseRun.afterChildren hold token) := by
  unfold PhaseRun.afterChildren
  split
  · exact keeps_wait .cancelled
  · exact keeps_unlessCancelled trivial (keeps_done _)

/-! ### Patterns -/

/-- The phases of a pattern, each of which keeps the timers on time when it starts. -/
def KeepsStarts (pace : Pace) (frame : Nat) (past : List Note) (starts : PatternRun.Starts Watched) : Prop :=
  ∀ start ∈ starts, ∀ index token, KeepsTurn pace frame past (start index token)

theorem bides_announce (run : PatternRun) (index : Nat) :
    Bides pace frame (fun _ => True) (run.announce index) := by
  have hlives : Bides pace frame (fun _ => True) (if index > 0 && run.props.boss.isSome then
      World.serve (.lives (Pattern.remainingLives run.phases index)) else pure () : World.M Activity Unit) := by
    split
    · exact bides_serve _
    · exact bides_pure trivial
  unfold PatternRun.announce
  cases run.props.bgms[index]? with
  | none => exact hlives
  | some track => exact (bides_serve _).andThen fun _ => hlives

theorem keeps_enter {run : PatternRun} {index : Nat} {start : Nat → CancelToken → Step Watched} {others : Step Watched}
    (h : Coded (Phase.expressionsList run.phases)) (hstart : KeepsTurn pace frame past (start index run.token))
    (hothers : KeepsTurn pace frame past others) : KeepsTurn pace frame past (run.enter index start others) := by
  refine keeps_unlessCancelled trivial ?_
  refine (keeps_change (bides_announce run index)).bind fun _ _ => hstart.bind fun turn hturn => ?_
  exact keeps_followedBy hturn h (keeps_onSuccess hothers)

theorem keeps_visit {run : PatternRun} {starts : PatternRun.Starts Watched}
    (h : Coded (Phase.expressionsList run.phases)) (hstarts : KeepsStarts pace frame past starts)
    (current : Option Nat) : KeepsTurn pace frame past (run.visit starts current) := by
  unfold PatternRun.visit
  generalize 2 * run.phases.length + 1 = count
  induction count generalizing current with
  | zero => exact keeps_done _
  | succ count ih =>
    refine (keeps_change (bides_nextPhase current)).bind fun next _ => ?_
    cases next with
    | none => exact keeps_done _
    | some index =>
      dsimp only
      cases run.phases[index]? with
      | none => exact keeps_done _
      | some phase =>
        cases hplace : starts[index]? with
        | none => exact keeps_done _
        | some start =>
          have henter := keeps_enter h (hstarts start (List.mem_of_getElem? hplace) index run.token) (ih (some index))
          dsimp only
          split
          · exact ih _
          refine (keeps_change bides_get).bind fun p _ => ?_
          cases p.shared.bufferFrames with
          | zero => exact henter
          | succ frames =>
            refine (keeps_frames _ run.token).bind fun turn hturn => ?_
            exact keeps_followedBy hturn h (keeps_onSuccess henter)

theorem keeps_closeBoss (boss : Boss) (answer : Except MachineError Unit) :
    KeepsTurn pace frame past (PatternRun.closeBoss boss answer) := by
  have hdismiss : Bides pace frame (fun _ => True) (PatternRun.dismissBoss boss) :=
    (bides_serve _).andThen fun _ => bides_updateCampaign _
  exact (keeps_change hdismiss).bind fun _ _ => keeps_done _

theorem keeps_patternStart (run : PatternRun) {starts : PatternRun.Starts Watched}
    (h : Coded (Phase.expressionsList run.phases)) (hstarts : KeepsStarts pace frame past starts) :
    KeepsTurn pace frame past (run.start starts) := by
  unfold PatternRun.start
  cases run.props.boss with
  | none => exact keeps_visit h hstarts none
  | some boss =>
    refine (keeps_change (bides_updateCampaign _)).bind fun _ _ => ?_
    refine (keeps_visit h hstarts none).bind fun turn hturn => ?_
    exact keeps_followedBy hturn trivial (keeps_closeBoss boss)

/-! ### Trees -/

mutual

/-- The first turn of a tree. -/
theorem keeps_nodeStart : (node : Node Callable) → (token : CancelToken) → Coded node.expressions →
    KeepsTurn pace frame past (node.start token)
  | .pattern props phases, token, h => by
    rw [Node.start]
    exact keeps_patternStart ⟨props, phases, token⟩ h (keeps_phaseStarts phases h)
  | .phase phase, token, h => by
    rw [Node.start]
    exact keeps_phaseStart phase 0 token h
  | .action wait blocking children, token, h => by
    rw [Node.start]
    refine (keeps_delayed wait token).bind fun turn hturn => ?_
    refine keeps_followedBy hturn h (keeps_onSuccess ?_)
    exact keeps_together token h (keeps_startParts children token h) (keeps_startMany children true token h)
  | .sequence wait children, token, h => by
    rw [Node.start]
    refine (keeps_delayed wait token).bind fun turn hturn => ?_
    exact keeps_followedBy hturn h (keeps_onSuccess (keeps_startInTurn children token h))
  | .endBlock wait blocking children, token, h => by
    rw [Node.start]
    refine (keeps_delayed wait token).bind fun turn hturn => ?_
    refine keeps_followedBy hturn h (keeps_onSuccess ?_)
    exact keeps_together token h (keeps_startParts children token h) (keeps_startMany children true token h)
  | .finish child, token, h => by
    rw [Node.start]
    exact keeps_nodeStart child token h
  | .leaf act, token, h => by
    rw [Node.start]
    exact keeps_leafStart h token

/-- Some trees one after another. -/
theorem keeps_startInTurn : (children : List (Node Callable)) → (token : CancelToken) →
    Coded (Node.expressionsList children) → KeepsTurn pace frame past (Node.startInTurn children token)
  | [], _, _ => keeps_done _
  | node :: rest, token, h => by
    rw [Node.expressionsList, coded_append] at h
    rw [Node.startInTurn]
    refine (keeps_nodeStart node token h.1).bind fun turn hturn => ?_
    exact keeps_followedBy hturn h.2 (keeps_onSuccess (keeps_startInTurn rest token h.2))

/-- Some trees side by side. -/
theorem keeps_startParts : (children : List (Node Callable)) → (token : CancelToken) →
    Coded (Node.expressionsList children) →
    KeepsTime pace frame past (LeavesParts Activity.Scripted) (Node.startParts children token)
  | [], _, _ => keeps_pure (List.forall_mem_nil _)
  | node :: rest, token, h => by
    rw [Node.expressionsList, coded_append] at h
    rw [Node.startParts]
    refine (keeps_nodeStart node token h.1).bind fun turn hturn => ?_
    exact keeps_collect hturn (keeps_startParts rest token h.2)

/-- Many trees side by side, each of which is looked at once. -/
theorem keeps_startMany : (children : List (Node Callable)) → (finished : Bool) → (token : CancelToken) →
    Coded (Node.expressionsList children) → KeepsTurn pace frame past (Node.startMany finished children token)
  | [], true, _, _ => keeps_done _
  | [], false, _, _ => keeps_pure .stuck
  | node :: rest, finished, token, h => by
    rw [Node.expressionsList, coded_append] at h
    rw [Node.startMany]
    refine (keeps_nodeStart node token h.1).bind fun turn _ => ?_
    match turn, finished with
    | .done (.ok ()), _ => exact keeps_startMany rest _ token h.2
    | .done (.error _), true => exact keeps_done _
    | .done (.error _), false => exact keeps_startMany rest false token h.2
    | .waiting _, _ => exact keeps_startMany rest false token h.2

/-- The first turn of a block, if there is one. -/
theorem keeps_startOption : (block : Option (Node Callable)) → (token : CancelToken) →
    Coded (Node.expressionsOption block) → KeepsTurn pace frame past (Node.startOption block token)
  | none, _, _ => keeps_done _
  | some node, token, h => by
    rw [Node.startOption]
    exact keeps_nodeStart node token h

/-- The first turn of a phase. -/
theorem keeps_phaseStart : (phase : Phase Callable) → (index : Nat) → (token : CancelToken) →
    Coded phase.expressions → KeepsTurn pace frame past (phase.start index token)
  | .mk props children atEnd atCut, index, token, h => by
    have hparts := h
    rw [Phase.expressions, coded_append, coded_append] at hparts
    rw [Phase.start]
    refine keeps_unlessCancelled trivial ?_
    refine (keeps_open _ index token).bind fun run hrun => ?_
    have hphase : Coded run.phase.expressions := hrun.1 ▸ h
    refine (keeps_startInTurn children run.joint hparts.1).bind fun turn hturn => ?_
    refine KeepsTime.bind (keeps_followedBy hturn (show (Continuation.hold props.hold run.joint).Scripted from trivial)
      (keeps_onSuccess (keeps_afterChildren props.hold run.joint))) fun turn hturn => ?_
    exact keeps_followedBy hturn ⟨hphase, hrun.2⟩
      (keeps_settle hphase hrun.2 (keeps_startOption atEnd token hparts.2.1))

/-- The first turns of some phases. -/
theorem keeps_phaseStarts : (phases : List (Phase Callable)) → Coded (Phase.expressionsList phases) →
    KeepsStarts pace frame past (Phase.starts phases)
  | [], _ => List.forall_mem_nil _
  | phase :: rest, h => by
    rw [Phase.expressionsList, coded_append] at h
    rw [Phase.starts]
    exact List.forall_mem_cons.2
      ⟨fun index token => keeps_phaseStart phase index token h.1, keeps_phaseStarts rest h.2⟩

end

/-! ### Activities -/

/-- The turn after a part that is over. -/
theorem keeps_apply {next : Continuation} (hnext : next.Scripted) (answer : Except MachineError Unit) :
    KeepsTurn pace frame past (next.apply answer) := by
  cases next with
  | sequence rest token => exact keeps_onSuccess (keeps_startInTurn rest token hnext) answer
  | spread blocking children token =>
    refine keeps_onSuccess (keeps_together token hnext ?_ ?_) answer
    · exact keeps_startParts children token hnext
    · exact keeps_startMany children true token hnext
  | hold stays token => exact keeps_onSuccess (keeps_afterChildren stays token) answer
  | settle run =>
    refine keeps_settle hnext.1 hnext.2 (keeps_startOption _ run.token ?_) answer
    have hphase := hnext.1
    rcases hrun : run.phase with ⟨props, children, atEnd, atCut⟩
    rw [hrun, Phase.expressions, coded_append, coded_append] at hphase
    exact hphase.2.1
  | enterPhase run index =>
    have hstarts : KeepsStarts pace frame past (Phase.starts run.phases) := keeps_phaseStarts run.phases hnext
    simp only [Continuation.apply]
    cases hplace : (Phase.starts run.phases : PatternRun.Starts Watched)[index]? with
    | none => exact keeps_onSuccess (keeps_done _) answer
    | some start =>
      refine keeps_onSuccess (keeps_enter hnext (hstarts start (List.mem_of_getElem? hplace) index run.token) ?_) answer
      exact keeps_visit hnext hstarts (some index)
  | nextPhase run index =>
    exact keeps_onSuccess (keeps_visit hnext (keeps_phaseStarts run.phases hnext) (some index)) answer
  | closeBoss boss => exact keeps_closeBoss boss answer
  | expire source =>
    refine keeps_onSuccess ?_ answer
    exact (keeps_perform (Q := fun _ => True) rfl (bides_expire hnext)).bind fun _ _ => keeps_done _
  | advanceTimers token => exact hnext.elim
  | report => exact (keeps_change (bides_keepOutcome answer)).bind fun _ _ => keeps_done _

mutual

/-- The turn of an activity. -/
theorem Activity.keeps_turn : (a : Activity) → a.Scripted → KeepsTurn pace frame past a.turn
  | .start node token, .start h => by
    rw [Activity.turn]
    exact keeps_nodeStart node token h
  | .wait pause, h => by
    rw [Activity.turn]
    exact keeps_wait h
  | .andThen first next, .andThen hfirst hnext => by
    rw [Activity.turn]
    refine (Activity.keeps_turn first hfirst).bind fun turn hturn => ?_
    exact keeps_followedBy hturn hnext (keeps_apply hnext)
  | .join parts, .join h => by
    rw [Activity.turn]
    exact (Activity.keeps_turnParts parts h).bind keeps_ofParts
  | .stuck, _ => keeps_pure .stuck

/-- The turns of parts that go on side by side. -/
theorem Activity.keeps_turnParts : (parts : List Activity) → (∀ a ∈ parts, a.Scripted) →
    KeepsTime pace frame past (LeavesParts Activity.Scripted) (Activity.turnParts parts)
  | [], _ => keeps_pure (List.forall_mem_nil _)
  | part :: rest, h => by
    rw [Activity.turnParts]
    refine (Activity.keeps_turn part (h part List.mem_cons_self)).bind fun turn hturn => ?_
    exact keeps_collect hturn (Activity.keeps_turnParts rest fun a ha => h a (List.mem_cons_of_mem part ha))

end

end Barrage
