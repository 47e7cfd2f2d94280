import Barrage.Proofs.Machine.Cuts
import Barrage.Proofs.Machine.Surroundings
import Mathlib.Data.Nat.PSub

/-!
# Turns of a phase

A phase of plain children, at any place of its task, among bystanders. In the turn in which it starts, it is opened
and its children start; in every later turn the children go on. If their course ends in the frame of a turn, the
phase is over in that turn, and if their token is cancelled by then, it is over as well, for the cause that the run
shows. Otherwise it goes on, as long as it keeps its place, and so does the task that watches its time, which takes
its turn later in the same frame.

## Main definitions

* `Phase.timeline`: the course of the children of a phase
* `PhaseRun.Others`: the tasks beside a phase, with the one that watches its time
* `PhaseRun.Underway`: a run just before a frame in which a phase goes on

## Main results

* `PhaseRun.underway_of_turn`: a frame after whose turn a phase goes on
* `PhaseRun.Underway.goes_on`, `PhaseRun.Underway.clears`, `PhaseRun.Underway.cut`: the frames after it
-/

namespace Barrage

open Timeline

/-- The course of the children of a phase, if nothing cuts it. One that holds goes on for ever. -/
noncomputable def Phase.timeline (F : Forecast) (phase : Phase Callable) : Timeline :=
  (Node.timelineInTurn F phase.children).seq (if phase.props.hold then never else immediate)

theorem Phase.ends_timeline (F : Forecast) (phase : Phase Callable) (f : Nat) :
    (phase.timeline F f).ends =
      if phase.props.hold then none else (Node.timelineInTurn F phase.children f).ends := by
  rw [Phase.timeline]
  cases hends : (Node.timelineInTurn F phase.children f).ends with
  | none => rw [seq_of_none hends, hends, ite_self]
  | some e =>
    rw [seq_of_some hends]
    split <;> rfl

namespace PhaseRun

variable {E : Callable → Prop} {F : Forecast} {T : CancelToken} {run : PhaseRun} {phase : Phase Callable}
  {index : Nat} {m p q : Machine} {g : Nat}

/-! ### One turn -/

/-- The children of a phase that start in a turn. -/
def begin (run : PhaseRun) : Step (World.M Activity) := do
  (← Node.startInTurn run.phase.children run.joint).followedBy (.hold run.phase.props.hold run.joint)
    (Step.onSuccess (afterChildren run.phase.props.hold run.joint))

theorem realizes_begin (hchildren : ∀ child ∈ run.phase.children, child.Plain E F) :
    Realizes E F run.joint g run.begin (run.phase.timeline F g) := by
  refine (realizes_startInTurn _ hchildren g).followedBy (.hold run.phase.props.hold run.joint)
    (Node.causal_timelineInTurn F _) rfl ?_
  have hnext : (Continuation.hold run.phase.props.hold run.joint).Plain E F run.joint := rfl
  exact realizes_apply hnext

/-- What follows the children of a phase only adds to a run. -/
theorem advances_startOption (block : Option (Node Callable)) (token : CancelToken) (p : Machine) :
    p.Advances (fun _ => True) ((Node.startOption block token : Step (World.M Activity)).run p).2 :=
  ((shows_startOption block token token.includes_none (Nat.le_refl _)).advances (p := p) trivial).1.mono
    fun _ _ => trivial

/-- The turn in which a phase starts. -/
theorem run_start (hlive : ¬ T.isCancelled q.sources) :
    (phase.start index T : Step (World.M Activity)).run q =
      let run := opened phase index T q
      let turn := run.begin.run ((PhaseRun.open phase index T).run q).2
      (turn.1.followedBy (.settle run) (run.settle (Node.startOption phase.atEnd T)) : Step (World.M Activity)).run
        turn.2 := by
  obtain ⟨hosts, services, hopen⟩ := run_open phase index T q
  rw [hopen]
  obtain ⟨props, children, atEnd, atCut⟩ := phase
  have henter : (Stage.perform (.enter (.mk props children atEnd atCut) index T) : World.M Activity PhaseRun).run q = _ :=
    hopen
  rw [Phase.start, run_unlessCancelled, if_neg hlive, run_then henter]
  exact run_bind_assoc

/-- A turn in which the children of a phase are over, or go on. -/
theorem settle_followedBy {turn : Turn Activity} {c : Course} {said : List Saying} {ending : Step (World.M Activity)}
    (hending : ∀ q : Machine, q.Advances (fun _ => True) (ending.run q).2) (hp : p.clock.frame = g)
    (hdoes : p.Does E F run.joint q said) (hleads : c.Leads E F run.joint g turn) :
    (c.ends = some g → p.shared.campaign.completions ++ [run.completion .cleared g] <+:
      ((turn.followedBy (.settle run) (run.settle ending)).run q).2.shared.campaign.completions) ∧
    (c.ends ≠ some g → ∃ rest : Activity, turn = .waiting rest ∧ rest.Plain E F run.joint ∧
      (rest.timeline F (g + 1)).ends = c.ends) := by
  cases turn with
  | done answer =>
    obtain ⟨rfl, hends⟩ := hleads
    refine ⟨fun _ => ?_, fun hne => absurd hends hne⟩
    have hcause : run.causeOf q (.ok ()) = .ok .cleared := rfl
    have hcompletions := completions_settle hcause hending
    rwa [hdoes.campaign, hdoes.clock, hp] at hcompletions
  | waiting rest =>
    refine ⟨fun hends => absurd hends hleads.2.1, fun _ => ⟨rest, rfl, hleads.1, ?_⟩⟩
    rw [hleads.2.2]
    rfl

/-! ### The tasks beside a phase -/

/-- The tasks beside a phase: tasks that leave it alone for some frames, and the task that watches its time, if it
has so many frames left. -/
def Others (run : PhaseRun) (quiet : Nat) : Option Nat → List Activity → Prop
  | none, tasks => ∀ a ∈ tasks, a.ApartFor run.joint quiet
  | some left, tasks => ∃ before after, tasks = before ++ run.timer left :: after ∧
    ∀ a ∈ before ++ after, a.ApartFor run.joint quiet

/-- The sources after a turn of the task that watches the time of a phase. -/
def timed (run : PhaseRun) (left : Option Nat) (s : Sources) : Sources :=
  if left = some 0 then s.expire run.source else s

theorem Others.append {quiet : Nat} {left : Option Nat} {tasks more : List Activity} (h : run.Others quiet left tasks)
    (hmore : ∀ a ∈ more, a.ApartFor run.joint quiet) : run.Others quiet left (tasks ++ more) := by
  cases left with
  | none => exact fun a ha => (List.mem_append.1 ha).elim (h a) (hmore a)
  | some left =>
    obtain ⟨before, after, rfl, hapart⟩ := h
    refine ⟨before, after ++ more, by simp, fun a ha => ?_⟩
    rw [← List.append_assoc] at ha
    exact (List.mem_append.1 ha).elim (hapart a) (hmore a)

theorem agrees_timed {s t : Sources} (left : Option Nat) (h : run.joint.Agrees s t) :
    run.joint.Agrees (run.timed left s) (run.timed left t) := by
  unfold timed
  split
  · intro source hsource
    rw [Sources.expire, Sources.expire, Sources.getElem?_finish, Sources.getElem?_finish, h source hsource]
  · exact h

/-- A moment in the rest of a frame in which only bystanders and the task that watches the time of a phase wait for
their turns: that task waits as well, or it has taken its turn. -/
def Watches (run : PhaseRun) (quiet : Nat) (left : Option Nat) (p : Machine) (kept queue : List Activity)
    (q : Machine) : Prop :=
  ((∀ a ∈ kept, a.ApartFor run.joint quiet) ∧ left.isSome ∧ run.Others (quiet + 1) left queue ∧ p.Spares run.joint q) ∨
    (run.Others quiet (left.bind Nat.ppred) kept ∧ (∀ a ∈ queue, a.ApartFor run.joint (quiet + 1)) ∧
      Machine.Spares run.joint { p with sources := run.timed left p.sources } q)

theorem Watches.turn {quiet : Nat} {left : Option Nat} {kept rest : List Activity} {task : Activity}
    (hlive : left.isSome → ¬ run.joint.isCancelled p.sources)
    (h : run.Watches quiet left p kept (task :: (rest ++ q.spawned)) q) :
    run.Watches quiet left p (kept ++ ((task.step q).1.left).toList) (rest ++ (task.step q).2.spawned)
      (task.step q).2 := by
  -- A bystander takes its turn: it is kept as such, and so are those that it spawns.
  have hstep : task.ApartFor run.joint (quiet + 1) → q.Spares run.joint (task.step q).2 ∧
      (∃ new, (task.step q).2.spawned = q.spawned ++ new ∧ ∀ b ∈ new, b.ApartFor run.joint (quiet + 1)) ∧
      ∀ b ∈ ((task.step q).1.left).toList, b.ApartFor run.joint quiet := fun hapart => by
    obtain ⟨hspares, ⟨new, hnew, hnewApart⟩, hleft⟩ := hapart.step q
    exact ⟨hspares, ⟨new, hnew, fun b hb => .apart (hnewApart b hb)⟩, fun b hb => hleft b (Option.mem_toList.1 hb)⟩
  rcases h with ⟨hkept, hsome, hothers, hspares⟩ | ⟨hothers, hqueue, hspares⟩
  · obtain ⟨k, rfl⟩ := Option.isSome_iff_exists.1 hsome
    obtain ⟨before, after, hqueue, hapart⟩ := hothers
    cases before with
    | nil =>
      obtain ⟨rfl, hrest⟩ := List.cons.inj hqueue
      have hlive' : ¬ run.joint.isCancelled q.sources := by rw [hspares.sources.isCancelled]; exact hlive rfl
      have hturn := run_timer hlive' k
      right
      cases k with
      | zero =>
        rw [hturn]
        refine ⟨by simpa [Others, Turn.left, Turn.finished] using hkept, fun a ha => ?_, ?_⟩
        · exact hapart a (by simpa [← hrest] using ha)
        · exact { hspares with sources := agrees_timed (some 0) hspares.sources }
      | succ k =>
        rw [hturn]
        refine ⟨⟨kept, [], rfl, by simpa using hkept⟩, fun a ha => ?_, ?_⟩
        · exact hapart a (by simpa [← hrest] using ha)
        · exact { hspares with sources := agrees_timed (some (k + 1)) hspares.sources }
    | cons first before =>
      obtain ⟨rfl, hrest⟩ := List.cons.inj hqueue
      obtain ⟨hspares', ⟨new, hnew, hnewApart⟩, hleft⟩ := hstep (hapart _ (by simp))
      refine .inl ⟨fun a ha => (List.mem_append.1 ha).elim (hkept a) (hleft a), rfl,
        ⟨before, after ++ new, ?_, fun a ha => ?_⟩, hspares.trans hspares'⟩
      · calc rest ++ (task.step q).2.spawned = rest ++ q.spawned ++ new := by rw [hnew, List.append_assoc]
          _ = before ++ run.timer k :: after ++ new := congrArg (· ++ new) hrest
          _ = before ++ run.timer k :: (after ++ new) := List.append_assoc _ _ _
      · rw [← List.append_assoc] at ha
        exact (List.mem_append.1 ha).elim (fun ha => hapart a (List.mem_cons_of_mem _ ha)) (hnewApart a)
  · obtain ⟨hspares', ⟨new, hnew, hnewApart⟩, hleft⟩ := hstep (hqueue _ List.mem_cons_self)
    refine .inr ⟨hothers.append hleft, fun a ha => ?_, hspares.trans hspares'⟩
    rw [hnew, ← List.append_assoc] at ha
    exact (List.mem_append.1 ha).elim (fun ha => hqueue a (List.mem_cons_of_mem _ ha)) (hnewApart a)

theorem Watches.taken {quiet : Nat} {left : Option Nat} {kept queue : List Activity}
    (h : run.Watches quiet left p kept queue q) : run.Watches quiet left p kept queue { q with spawned := [] } :=
  h.imp (fun ⟨hkept, hsome, hothers, hspares⟩ => ⟨hkept, hsome, hothers, { hspares with }⟩)
    fun ⟨hothers, hqueue, hspares⟩ => ⟨hothers, hqueue, { hspares with }⟩

/-- When nobody waits any more, the task that watches the time has taken its turn. -/
theorem Watches.over {quiet : Nat} {left : Option Nat} {kept : List Activity} (h : run.Watches quiet left p kept [] q) :
    run.Others quiet (left.bind Nat.ppred) kept ∧
      Machine.Spares run.joint { p with sources := run.timed left p.sources } q := by
  rcases h with ⟨-, hsome, hothers, -⟩ | ⟨hothers, -, hspares⟩
  · obtain ⟨k, rfl⟩ := Option.isSome_iff_exists.1 hsome
    obtain ⟨before, after, hnil, -⟩ := hothers
    simp at hnil
  · exact ⟨hothers, hspares⟩

/-- The rest of a frame in which only bystanders and the task that watches the time of a phase wait for their
turns. -/
theorem others_rest {done : List Machine.Poll} {rest : List Activity} {quiet : Nat} {left : Option Nat}
    (h : m.Round done rest p) (hlive : left.isSome → ¬ run.joint.isCancelled p.sources)
    (hothers : run.Others (quiet + 1) left (rest ++ p.spawned)) :
    ∃ kept, m.tick.tasks = done.filterMap Machine.Poll.kept ++ kept ∧ m.tick.spawned = [] ∧
      run.Others quiet (left.bind Nat.ppred) kept ∧
      m.tick.shared.executor.shifter = p.shared.executor.shifter ∧
      m.tick.shared.campaign.completions = p.shared.campaign.completions ∧
      run.joint.Agrees (run.timed left p.sources) m.tick.sources := by
  -- The invariant of the rest of the frame is about the tasks that were kept since its start only.
  have hstart : run.Watches quiet left p [] (rest ++ p.spawned) p := by
    cases left with
    | none => exact .inr ⟨by simp [Others], hothers, .refl _ _⟩
    | some left => exact .inl ⟨by simp, rfl, hothers, .refl _ _⟩
  have hstep : ∀ (turns : List Machine.Poll) task (rest : List Activity) (q : Machine),
      (∃ more, turns = done ++ more ∧
        run.Watches quiet left p (more.filterMap Machine.Poll.kept) (task :: (rest ++ q.spawned)) q) →
      ∃ more, turns ++ [⟨task, q⟩] = done ++ more ∧
        run.Watches quiet left p (more.filterMap Machine.Poll.kept) (rest ++ ((Activity.taskTurn task).run q).2.spawned)
          ((Activity.taskTurn task).run q).2 := by
    rintro turns task rest q ⟨more, rfl, hwatches⟩
    refine ⟨more ++ [⟨task, q⟩], List.append_assoc _ _ _, ?_⟩
    have hlast : List.filterMap Machine.Poll.kept [(⟨task, q⟩ : Machine.Poll)] = ((task.step q).1.left).toList := by
      rw [← Machine.Poll.kept_eq ⟨task, q⟩, List.filterMap_cons, List.filterMap_nil]
      cases Machine.Poll.kept ⟨task, q⟩ <;> rfl
    rw [List.filterMap_append, hlast, Activity.run_taskTurn]
    exact hwatches.turn hlive
  have htake : ∀ (turns : List Machine.Poll) (q : Machine),
      (∃ more, turns = done ++ more ∧ run.Watches quiet left p (more.filterMap Machine.Poll.kept) q.spawned q) →
      ∃ more, turns = done ++ more ∧
        run.Watches quiet left p (more.filterMap Machine.Poll.kept) q.spawned { q with spawned := [] } :=
    fun turns q ⟨more, hmore, hwatches⟩ => ⟨more, hmore, hwatches.taken⟩
  obtain ⟨last, ⟨more, hpolls, hwatches⟩, hspawned, htick⟩ := Scheduler.Round.rule
    (I := fun turns queue (q : Machine) => ∃ more, turns = done ++ more ∧
      run.Watches quiet left p (more.filterMap Machine.Poll.kept) queue q)
    Activity.descending hstep htake h ⟨[], (List.append_nil _).symm, hstart⟩
  obtain ⟨hothers, hspares⟩ := hwatches.over
  rw [Machine.tick, htick]
  refine ⟨_, ?_, hspawned, hothers, hspares.shifter, hspares.completions, hspares.sources⟩
  rw [← List.filterMap_append, ← hpolls]

/-! ### Frames of a phase -/

/-- What is left of a phase that goes on: the rest of its children, and its end. -/
def part (run : PhaseRun) (rest : Activity) : Activity := .andThen rest (.settle run)

/-- A run just before a frame in which a phase goes on, with so much left of its children, and such layers around it
in its task. The course of its children ends in some frame, if nothing cuts it, its time has so many frames left, and
its task has a place among the tasks of the run. The others leave the phase alone until its turn comes once more, and
for some more frames after it. -/
structure Underway (run : PhaseRun) (E : Callable → Prop) (F : Forecast) (ends : Option Nat)
    (ended : List Completion) (quiet : Nat) (left : Option Nat) (here : Nat) (rest : Activity) (layers : List Layer)
    (m : Machine) : Prop where
  held : run.Held m
  completions : m.shared.campaign.completions = ended
  spawned : m.spawned = []
  tasks : ∃ before after, m.tasks = before ++ (run.part rest).inside layers :: after ∧ before.length = here ∧
    (∀ a ∈ before, a.ApartFor run.joint (quiet + 1)) ∧ run.Others quiet left after
  beside : ∀ layer ∈ layers, layer.Apart run.joint
  plain : rest.Plain E F run.joint
  ends : (rest.timeline F m.clock.frame).ends = ends

variable {layers layers' : List Layer} {ends : Option Nat} {ended : List Completion} {quiet : Nat} {left : Option Nat}
  {here : Nat} {done : List Machine.Poll} {after : List Activity} {a rest : Activity} {poll : Machine.Poll}

theorem Held.of_spares (h : run.Held m) (hspares : m.Spares run.joint p) : run.Held p := by
  refine ⟨hspares.shifter.trans h.shifter, fun source hsource => ?_⟩
  have hsome : p.sources.states[source]? = m.sources.states[source]? := hspares.sources source hsource
  have hlt := h.known source hsource
  rw [List.getElem?_eq_getElem hlt] at hsome
  exact (List.getElem?_eq_some_iff.1 hsome).1

/-- A frame in which the turn of a task comes to a phase that goes on after it and keeps its place. -/
theorem underway_of_turn {point : Step (World.M Activity)} {r s : Machine} (h : m.Round done (a :: after) p)
    (henters : Step.Enters point q a.turn p layers) (hpoint : point.run q = (.waiting (run.part rest), r))
    (htrail : Layer.trailAll layers r = some (layers', s))
    (hdone : ∀ b ∈ done.filterMap Machine.Poll.kept, b.ApartFor run.joint (quiet + 1))
    (hothers : run.Others (quiet + 1) left (after ++ r.spawned)) (hbeside : ∀ layer ∈ layers, layer.Apart run.joint)
    (hlive : left.isSome → ¬ run.joint.isCancelled r.sources) (hheld : run.Held r)
    (hcompletions : r.shared.campaign.completions = ended) (hrest : rest.Plain E F run.joint)
    (hends : (rest.timeline F (m.clock.frame + 1)).ends = ends) :
    m.polls[done.length]? = some ⟨a, p⟩ ∧ (Machine.Poll.kept ⟨a, p⟩).isSome ∧
      run.Underway E F ends ended quiet (left.bind Nat.ppred)
        ((m.polls.take done.length).filterMap Machine.Poll.kept).length rest layers' m.tick ∧
      run.joint.Agrees (run.timed left r.sources) m.tick.sources := by
  obtain ⟨⟨hspares, new, hnew, hnewApart⟩, hbeside'⟩ := Layer.trailAll_undisturbed hbeside htrail
  have hturn : a.step p = (.waiting ((run.part rest).inside layers'), s) :=
    henters.run.2.1 _ layers' s (by rw [hpoint]) (by rw [hpoint]; exact htrail)
  obtain ⟨hpoll, htake⟩ := h.polls_getElem? Activity.descending
  have hkept : Machine.Poll.kept ⟨a, p⟩ = some ((run.part rest).inside layers') := by
    rw [Machine.Poll.kept_eq, hturn]
    rfl
  -- From here on only the others have their turns in this frame.
  have hround := Scheduler.Round.turn h
  rw [Activity.run_taskTurn, hturn] at hround
  have hlive' : left.isSome → ¬ run.joint.isCancelled s.sources := fun hsome => by
    rw [hspares.sources.isCancelled]
    exact hlive hsome
  have hothers' : run.Others (quiet + 1) left (after ++ s.spawned) := by
    rw [hnew, ← List.append_assoc]
    exact hothers.append fun b hb => .apart (hnewApart b hb)
  obtain ⟨kept, htasks, hspawned, hleft, hshifter, hcompletions', hsources⟩ := others_rest hround hlive' hothers'
  have hheld' := hheld.of_spares hspares
  have hlength : s.sources.states.length ≤ m.tick.sources.states.length := by
    have hmem : (⟨a, p⟩ : Machine.Poll) ∈ m.polls := List.mem_of_getElem? hpoll
    have hlater := ((Machine.polls_later m).2.1 _ hmem).2
    rw [Machine.Poll.after_eq, hturn] at hlater
    exact hlater.ages.1
  refine ⟨hpoll, by rw [hkept]; rfl, ⟨⟨hshifter.trans hheld'.shifter, fun source hsource => ?_⟩,
    hcompletions'.trans (hspares.completions.trans hcompletions), hspawned, ?_, hbeside', hrest, ?_⟩,
    (agrees_timed left hspares.sources).trans hsources⟩
  · exact Nat.lt_of_lt_of_le (hheld'.known source hsource) hlength
  · rw [htake]
    refine ⟨_, kept, ?_, rfl, hdone, hleft⟩
    rw [htasks, List.filterMap_append, List.filterMap_cons_some hkept, List.filterMap_nil, List.append_assoc]
    rfl
  · rw [Machine.tick_clock]
    exact hends

/-- The task of a phase has its turn in a frame in which the phase goes on so far. -/
theorem Underway.round (h : run.Underway E F ends ended quiet left here rest layers m) :
    ∃ done after p, m.Round done ((run.part rest).inside layers :: after) p ∧ done.length = here ∧
      (∀ b ∈ done.filterMap Machine.Poll.kept, b.ApartFor run.joint quiet) ∧ m.Spares run.joint p ∧
      run.Others quiet left (after ++ p.spawned) := by
  obtain ⟨before, after, htasks, hlength, hapart, hothers⟩ := h.tasks
  have hstart : m.Round [] (before ++ (run.part rest).inside layers :: after) m := htasks ▸ .start
  obtain ⟨turns, p, hround, hspares, hturns, hkept, new, hnew, hnewApart⟩ := hstart.bystanders hapart
  rw [h.spawned, List.nil_append] at hnew
  refine ⟨turns, after, p, hround, hturns.trans hlength, hkept, hspares, ?_⟩
  rw [hnew]
  exact hothers.append fun b hb => .apart (hnewApart b hb)

theorem Underway.exists_poll (h : run.Underway E F ends ended quiet left here rest layers m) :
    ∃ poll, m.polls[here]? = some poll ∧ m.Spares run.joint poll.before := by
  obtain ⟨done, after, p, hround, rfl, -, hspares, -⟩ := h.round
  exact ⟨_, (hround.polls_getElem? Activity.descending).1, hspares⟩

/-- The turn of the task of a phase comes to the phase, if all that stands before it goes on. -/
theorem Underway.turn (h : run.Underway E F ends ended quiet left here rest layers m)
    (hpoll : m.polls[here]? = some poll) (hlead : Layer.leadAll layers poll.before = some (layers', q)) :
    ∃ done after, m.Round done (poll.task :: after) poll.before ∧ done.length = here ∧
      Step.Enters (run.part rest).turn q poll.task.turn poll.before layers' ∧
      (∀ b ∈ done.filterMap Machine.Poll.kept, b.ApartFor run.joint quiet) ∧ m.Spares run.joint q ∧
      run.Others quiet left (after ++ q.spawned) ∧ ∀ layer ∈ layers', layer.Apart run.joint := by
  obtain ⟨done, after, p, hround, rfl, hdone, hspares, hothers⟩ := h.round
  obtain rfl := Option.some.inj (hpoll.symm.trans (hround.polls_getElem? Activity.descending).1)
  obtain ⟨⟨hspares', new, hnew, hnewApart⟩, hbeside⟩ := Layer.leadAll_undisturbed h.beside hlead
  refine ⟨done, after, hround, rfl, Activity.enters_inside _ hlead, hdone, hspares.trans hspares', ?_, hbeside⟩
  rw [hnew, ← List.append_assoc]
  exact hothers.append fun b hb => .apart (hnewApart b hb)

/-- The turn of what is left of the children of a phase, and of its end. -/
theorem step_part (rest : Activity) (p : Machine) :
    (run.part rest).step p =
      (((rest.step p).1).followedBy (.settle run) (run.settle (Node.startOption run.phase.atEnd run.token)) :
        Step (World.M Activity)).run (rest.step p).2 := by
  rw [part, Activity.step, Activity.turn]
  rfl

theorem Does.held {said : List Saying} (hp : run.Held p) (hdoes : p.Does E F T q said) : run.Held q :=
  ⟨by rw [hdoes.executor]; exact hp.shifter, by rw [hdoes.sources]; exact hp.known⟩

/-- A frame in which the children of a phase are not over, and nothing has cut it: it goes on, and so it is underway
in the next frame if it keeps its place. -/
theorem Underway.goes_on (h : run.Underway E F ends ended (quiet + 1) left here rest layers m)
    (hpoll : m.polls[here]? = some poll) (hlead : Layer.leadAll layers poll.before = some (layers', q))
    (hlive : ¬ run.joint.isCancelled m.sources) (hright : F.Right E q) (hends : ends ≠ some m.clock.frame) :
    ∃ next r, (run.part rest).step q = (.waiting (run.part next), r) ∧ r.Goes E F run.joint ∧
      ∀ {layers'' s}, Layer.trailAll layers' r = some (layers'', s) →
        poll.kept.isSome ∧
        run.Underway E F ends ended quiet (left.bind Nat.ppred)
          ((m.polls.take here).filterMap Machine.Poll.kept).length next layers'' m.tick ∧
        run.joint.Agrees (run.timed left m.sources) m.tick.sources := by
  obtain ⟨done, after, hround, rfl, henters, hdone, hspares, hothers, hbeside⟩ := h.turn hpoll hlead
  have hlive' : ¬ run.joint.isCancelled q.sources := by rw [hspares.sources.isCancelled]; exact hlive
  have hgoes : q.Goes E F run.joint := ⟨hlive', hright⟩
  have hframe : q.clock.frame = m.clock.frame := by rw [hspares.clock]
  obtain ⟨hdoes, hleads⟩ := rest.realizes_turn h.plain _ q hgoes hframe
  obtain ⟨-, hwaits⟩ := settle_followedBy (advances_startOption run.phase.atEnd run.token) hframe hdoes hleads
  obtain ⟨next, hnext, hnextPlain, hnextEnds⟩ := hwaits (h.ends ▸ hends)
  have hturn : (run.part rest).step q = (.waiting (run.part next), (rest.step q).2) := by
    rw [step_part, hnext]
    rfl
  obtain ⟨new, hnew, hnewPlain⟩ := hdoes.spawned
  have hothers' : run.Others (quiet + 1) left (after ++ (rest.step q).2.spawned) := by
    rw [hnew, ← List.append_assoc]
    exact hothers.append fun b hb => .apart (hnewPlain b hb).apart
  refine ⟨next, _, hturn, hgoes.does hdoes, fun htrail => ?_⟩
  obtain ⟨-, hkept, hunderway, hagrees⟩ := underway_of_turn hround henters hturn htrail hdone hothers' hbeside
    (fun _ => hdoes.sources ▸ hlive') (Does.held (h.held.of_spares hspares) hdoes)
    (by rw [hdoes.campaign, hspares.completions, h.completions]) hnextPlain (hnextEnds.trans h.ends)
  refine ⟨hkept, hunderway, ?_⟩
  rw [hdoes.sources] at hagrees
  exact (agrees_timed left hspares.sources).trans hagrees

/-- A frame in which the children of a phase are over, and nothing has cut it. -/
theorem Underway.clears (h : run.Underway E F ends ended quiet left here rest layers m)
    (hpoll : m.polls[here]? = some poll) (hlead : Layer.leadAll layers poll.before = some (layers', q))
    (hlive : ¬ run.joint.isCancelled m.sources) (hright : F.Right E q) (hends : ends = some m.clock.frame) :
    ended ++ [run.completion .cleared m.clock.frame] <+: m.tick.shared.campaign.completions := by
  obtain ⟨done, after, hround, rfl, henters, -, hspares, -, -⟩ := h.turn hpoll hlead
  have hlive' : ¬ run.joint.isCancelled q.sources := by rw [hspares.sources.isCancelled]; exact hlive
  have hframe : q.clock.frame = m.clock.frame := by rw [hspares.clock]
  obtain ⟨hdoes, hleads⟩ := rest.realizes_turn h.plain _ q ⟨hlive', hright⟩ hframe
  obtain ⟨hover, -⟩ := settle_followedBy (advances_startOption run.phase.atEnd run.token) hframe hdoes hleads
  have hcompletions := hover (h.ends.trans hends)
  rw [← step_part, hspares.completions, h.completions] at hcompletions
  exact (hcompletions.trans henters.run.2.2.completions).trans hround.completions_turn

/-- A frame before which a phase was cut. -/
theorem Underway.cut (h : run.Underway E F ends ended quiet left here rest layers m)
    (hpoll : m.polls[here]? = some poll) (hlead : Layer.leadAll layers poll.before = some (layers', q))
    (hcut : run.joint.isCancelled m.sources) :
    run.joint.Agrees m.sources q.sources ∧
      ended ++ [run.completion (run.cutCause q) m.clock.frame] <+: m.tick.shared.campaign.completions := by
  obtain ⟨done, after, hround, rfl, henters, -, hspares, -, -⟩ := h.turn hpoll hlead
  refine ⟨hspares.sources, ?_⟩
  have hcut' : run.joint.isCancelled q.sources := by rw [hspares.sources.isCancelled]; exact hcut
  have hstops : rest.step q = (.cancelled, q) := rest.stops_turn hcut' h.plain
  have hcause : run.causeOf q (.error .cancelled) = .ok (run.cutCause q) := rfl
  have hcompletions := completions_settle hcause (advances_startOption run.phase.atEnd run.token)
  have hstep : (run.part rest).step q =
      (run.settle (Node.startOption run.phase.atEnd run.token) (.error .cancelled) : Step (World.M Activity)).run q := by
    rw [step_part, hstops]
    rfl
  rw [← hstep, hspares.completions, h.completions, hspares.clock] at hcompletions
  exact (hcompletions.trans henters.run.2.2.completions).trans hround.completions_turn

end PhaseRun

end Barrage
