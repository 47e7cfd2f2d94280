import Barrage.Proofs.Machine.PhaseTurns

/-!
# Waypoints of a pattern

A pattern can do a lot in one turn: a phase ends, its blocks follow, others are skipped, and one more starts. So
its way is cut at the points at which it decides where to go on. From each of them it takes one leap, and a turn is
as many leaps as it takes until the pattern has to wait or is over. The leaps are made of the parts that the turn
itself is made of, and the bound on the phases that are visited in one turn never cuts a turn short.

## Main definitions

* `PatternRun.Point`: where a pattern can be on its way
* `PatternRun.leap`: the way from a point to the next one
* `PatternRun.Moment`, `PatternRun.Passes`: the moments that a pattern passes in one turn

## Main results

* `PatternRun.ends_start`, `PatternRun.ends_stay`: the turns of a pattern are made of leaps
-/

namespace Barrage

namespace PatternRun

variable {run : PatternRun}

/-! ### Points -/

/-- The phase at some place of a pattern. -/
def phaseAt (run : PatternRun) (place : Fin run.phases.length) : Phase Callable := run.phases[place]

/-- A phase of a pattern that was entered. -/
structure Entry (run : PatternRun) where
  place : Fin run.phases.length
  source : Nat
  started : Nat

namespace Entry

/-- The phase that was entered. -/
def phase (entry : run.Entry) : Phase Callable := run.phaseAt entry.place

/-- The phase on its way. -/
def phaseRun (entry : run.Entry) : PhaseRun := ⟨entry.phase, entry.place, run.token, entry.source, entry.started⟩

end Entry

/-- Where a pattern can be between two turns. -/
inductive Stay (run : PatternRun) where
  /-- In the frames before a phase. -/
  | buffer (place : Fin run.phases.length) (left : Nat)
  /-- Within the children of a phase, or in the hold after them. -/
  | inside (entry : run.Entry) (rest : Activity)
  /-- Within the block for the end of a phase. -/
  | ending (entry : run.Entry) (rest : Activity)

/-- Where a pattern can be on its way. -/
inductive Point (run : PatternRun) where
  | start
  /-- The next phase is looked up. -/
  | look (current : Option Nat)
  | stay (stay : run.Stay)
  /-- A phase is to be entered. -/
  | enter (place : Fin run.phases.length)
  /-- A phase was entered. -/
  | begin (entry : run.Entry)
  /-- The children of a phase are over. -/
  | settle (entry : run.Entry) (answer : Except MachineError Unit)
  /-- A phase was settled, and the block for its end is to start, if there is one. -/
  | block (entry : run.Entry)
  /-- All is over, possibly since the children of a phase failed. -/
  | ended (answer : Except MachineError Unit) (failed : Option run.Entry)

/-- Where a leap leads. -/
inductive Leap (run : PatternRun) where
  /-- On to another point in the same turn. -/
  | on (next : run.Point)
  /-- To the end of the turn. -/
  | rest (stay : run.Stay)
  /-- To the end of the pattern. -/
  | done (answer : Except MachineError Unit)

/-- Where the turn of a part leads. -/
def Leap.ofTurn (finish : Except MachineError Unit → run.Point) (stay : Activity → run.Stay) : Turn Activity → run.Leap
  | .done answer => .on (finish answer)
  | .waiting left => .rest (stay left)

variable (run) in
/-- Where the lookup of the next phase leads. -/
def afterLook (frames : Nat) : Option Nat → run.Point
  | none => .ended (.ok ()) none
  | some index =>
    if h : index < run.phases.length then
      if run.phases[index].props.skip then .look (some index) else .stay (.buffer ⟨index, h⟩ frames)
    else .ended (.ok ()) none

/-- Where a point leads at which the token is looked at. -/
def ifLive (s : Sources) (next : run.Point) : run.Point :=
  if run.token.isCancelled s then .ended (.error .cancelled) none else next

/-- Where the end of a phase leads. -/
def afterSettle (entry : run.Entry) (s : Sources) : Except MachineError Unit → run.Point
  | .ok () => ifLive s (.block entry)
  | .error e => .ended (.error e) (some entry)

/-- Where the end of a block leads. -/
def afterBlock (entry : run.Entry) : Except MachineError Unit → run.Point
  | .ok () => .look (some entry.place)
  | .error e => .ended (.error e) none

/-- A run after the boss of a pattern was opened, if there is one. -/
def raised (run : PatternRun) (p : Machine) : Machine :=
  run.props.boss.elim p fun boss => ((openBoss boss).run p).2

/-- A run after the boss of a pattern was closed, if there is one. -/
def lowered (run : PatternRun) (p : Machine) : Machine :=
  run.props.boss.elim p fun boss => ((dismissBoss boss).run p).2

/-- The way from a point to the next one, and the run after it. -/
def leap (p : Machine) : run.Point → run.Leap × Machine
  | .start => (.on (.look none), run.raised p)
  | .look current =>
    let looked := (World.nextPhase current).run p
    (.on (run.afterLook p.shared.bufferFrames looked.1), looked.2)
  | .stay (.buffer place 0) => (.on (ifLive p.sources (.enter place)), p)
  | .stay (.buffer place (left + 1)) =>
    (if run.token.isCancelled p.sources then .on (.ended (.error .cancelled) none) else .rest (.buffer place left), p)
  | .enter place =>
    -- The token is looked at again, also right after the frames before the phase.
    if run.token.isCancelled p.sources then (.on (.ended (.error .cancelled) none), p)
    else
      let opened := (PhaseRun.open (run.phaseAt place) place run.token).run ((run.announce place).run p).2
      (.on (.begin ⟨place, opened.1.source, opened.1.started⟩), opened.2)
  | .begin entry =>
    let part := entry.phaseRun.begin.run p
    (.ofTurn (.settle entry) (.inside entry) part.1, part.2)
  | .stay (.inside entry rest) =>
    let part := rest.step p
    (.ofTurn (.settle entry) (.inside entry) part.1, part.2)
  | .settle entry answer =>
    let settled := (entry.phaseRun.conclude answer).run p
    (.on (afterSettle entry settled.2.sources settled.1), settled.2)
  | .block entry =>
    let part := (Node.startOption entry.phase.atEnd run.token : Step (World.M Activity)).run p
    (.ofTurn (afterBlock entry) (.ending entry) part.1, part.2)
  | .stay (.ending entry rest) =>
    let part := rest.step p
    (.ofTurn (afterBlock entry) (.ending entry) part.1, part.2)
  | .ended answer _ => (.done answer, run.lowered p)

/-- A pattern at some point in a run. -/
structure Moment (run : PatternRun) where
  point : run.Point
  before : Machine

namespace Moment

/-- Where the pattern goes from there. -/
def next (c : run.Moment) : run.Leap := (leap c.before c.point).1

/-- The run after the leap. -/
def after (c : run.Moment) : Machine := (leap c.before c.point).2

end Moment

/-- From one moment to another within a turn, with the moments that are passed. -/
inductive Passes : run.Moment → List run.Moment → run.Moment → Prop
  | here {c : run.Moment} : Passes c [] c
  | on {c d : run.Moment} {point : run.Point} {passed : List run.Moment} (h : c.next = .on point)
    (hrest : Passes ⟨point, c.after⟩ passed d) : Passes c (c :: passed) d

/-! ### Parts of turns -/

/-- What is left of a pattern between two turns, apart from its boss. -/
def Stay.activity : run.Stay → Activity
  | .buffer place left => .andThen (.wait (.frames left run.token)) (.enterPhase run place)
  | .inside entry rest => .andThen (.andThen rest (.settle entry.phaseRun)) (.nextPhase run entry.place)
  | .ending entry rest => .andThen rest (.nextPhase run entry.place)

/-- A part of a turn, and what follows it. -/
def proceed (part : Turn Activity × Machine) (next : Continuation) (go : AnswerStep (World.M Activity)) :
    Turn Activity × Machine :=
  (part.1.followedBy next go).run part.2

/-- A part of a turn is the way from some moment on, up to the end of the turn or of the pattern. -/
def Moment.Comes (c : run.Moment) (turn : Turn Activity × Machine) : Prop :=
  ∃ passed d, Passes c passed d ∧
    ((∃ stay, d.next = .rest stay ∧ turn = (.waiting stay.activity, d.after)) ∨
      ∃ answer failed, d.point = .ended answer failed ∧ turn = (.done answer, d.before))

namespace Moment

variable {c : run.Moment} {turn : Turn Activity × Machine} {p q : Machine}

/-- A leap that goes on. -/
theorem Comes.on {point next : run.Point} (h : leap p point = (.on next, q)) (hnext : Moment.Comes ⟨next, q⟩ turn) :
    Moment.Comes ⟨point, p⟩ turn := by
  obtain ⟨passed, d, hpasses, hd⟩ := hnext
  have hafter : Moment.after ⟨point, p⟩ = q := congrArg Prod.snd h
  have hpass : Passes ⟨next, Moment.after ⟨point, p⟩⟩ passed d := hafter.symm ▸ hpasses
  exact ⟨⟨point, p⟩ :: passed, d, .on (congrArg Prod.fst h) hpass, hd⟩

theorem comes_ended (answer : Except MachineError Unit) (failed : Option run.Entry) :
    Moment.Comes ⟨.ended answer failed, p⟩ (.done answer, p) :=
  ⟨[], _, .here, .inr ⟨answer, failed, rfl, rfl⟩⟩

/-- A part that is over leads on, and one that is not ends the turn. -/
theorem comes_proceed {point : run.Point} {part : Turn Activity × Machine} {next : Continuation}
    {go : AnswerStep (World.M Activity)} {finish : Except MachineError Unit → run.Point} {stay : Activity → run.Stay}
    (hleap : leap p point = (.ofTurn finish stay part.1, part.2))
    (hstay : ∀ rest, (stay rest).activity = .andThen rest next)
    (hover : ∀ answer, part.1 = .done answer → Moment.Comes ⟨finish answer, part.2⟩ ((go answer).run part.2)) :
    Moment.Comes ⟨point, p⟩ (proceed part next go) := by
  obtain ⟨turn, q⟩ := part
  cases turn with
  | done answer => exact .on hleap (hover answer rfl)
  | waiting rest =>
    have hafter : Moment.after ⟨point, p⟩ = q := congrArg Prod.snd hleap
    refine ⟨[], _, .here, .inl ⟨stay rest, congrArg Prod.fst hleap, ?_⟩⟩
    rw [hstay, hafter]
    rfl

end Moment

/-! ### Patterns without patterns -/

end PatternRun

/-- A phase with no phases and patterns in it. -/
structure Phase.Flat (phase : Phase Callable) : Prop where
  children : ∀ child ∈ phase.children, child.Phaseless .none
  atEnd : ∀ node ∈ phase.atEnd, node.Phaseless .none
  atCut : ∀ node ∈ phase.atCut, node.Phaseless .none

theorem Machine.Spares.controller {J : CancelToken} {p q : Machine} (h : p.Spares J q) :
    q.shared.executor.controller = p.shared.executor.controller := by rw [h.executor]

theorem sparing_startOption {block : Option (Node Callable)} (h : ∀ node ∈ block, node.Phaseless .none)
    (token : CancelToken) : SparingTurn .none (Node.startOption block token) := by
  cases block with
  | none => exact sparing_done _
  | some node => exact sparing_nodeStart node (h node rfl) token

namespace PatternRun

variable {run : PatternRun} {entry : run.Entry} {p q : Machine}

/-- No phase of the pattern has phases and patterns in it. -/
def Flat (run : PatternRun) : Prop := ∀ phase ∈ run.phases, phase.Flat

theorem Flat.phase (h : run.Flat) (entry : run.Entry) : entry.phase.Flat := h _ (List.getElem_mem _)

theorem sparing_begin (h : run.Flat) (entry : run.Entry) : SparingTurn .none entry.phaseRun.begin := by
  refine (sparing_startInTurn _ (h.phase entry).children entry.phaseRun.joint).bind fun turn hturn => ?_
  refine sparing_followedBy hturn trivial fun answer => sparing_onSuccess ?_ answer
  unfold PhaseRun.afterChildren
  split
  · exact sparing_wait _
  · exact sparing_unlessCancelled (sparing_done _)

theorem run_announce (run : PatternRun) (index : Nat) (p : Machine) :
    ∃ services : Services, ((run.announce index).run p).2 = { p with shared := { p.shared with services } } := by
  unfold announce World.serve
  cases run.props.bgms[index]? <;> dsimp only [] <;> split <;> exact ⟨_, rfl⟩

/-- The end of a phase does not steer the controller. -/
theorem controller_conclude (run : PhaseRun) (answer : Except MachineError Unit) (p : Machine) :
    ((run.conclude answer).run p).2.shared.executor.controller = p.shared.executor.controller := by
  cases hcause : run.causeOf p answer with
  | error e =>
    rw [PhaseRun.run_conclude_of_error hcause, PhaseRun.forgotten_eq]
  | ok cause =>
    obtain ⟨services, hrun⟩ := PhaseRun.run_conclude hcause
    rw [hrun]
    rfl

theorem starts_getElem? (phases : List (Phase Callable)) (index : Nat) :
    (Phase.starts phases : Starts (World.M Activity))[index]? = phases[index]?.map fun phase => phase.start := by
  induction phases generalizing index with
  | nil => rfl
  | cons phase rest ih =>
    rw [Phase.starts]
    cases index with
    | zero => rfl
    | succ index => exact ih index

/-! ### Turns of a pattern -/

section Turns

variable {K : Controller → Prop} {others : Step (World.M Activity)}

variable (run) in
/-- The phases after some phase are looked up in a step, for some controllers. -/
def LooksOn (K : Controller → Prop) (place : Nat) (others : Step (World.M Activity)) : Prop :=
  ∀ q : Machine, K q.shared.executor.controller → (⟨.look (some place), q⟩ : run.Moment).Comes (others.run q)

theorem comes_afterBlock (hothers : run.LooksOn K entry.place others) (hp : K p.shared.executor.controller)
    (answer : Except MachineError Unit) :
    Moment.Comes ⟨afterBlock entry answer, p⟩ ((Step.onSuccess others answer).run p) := by
  cases answer with
  | ok => exact hothers p hp
  | error e => exact Moment.comes_ended (.error e) none

/-- The end of a phase, with the block and the phases after it. -/
theorem comes_settle (hflat : run.Flat) (hothers : run.LooksOn K entry.place others)
    (hp : K p.shared.executor.controller) (answer : Except MachineError Unit) :
    let ending : Step (World.M Activity) := Node.startOption entry.phase.atEnd run.token
    Moment.Comes ⟨.settle entry answer, p⟩
      (proceed ((entry.phaseRun.settle ending answer).run p) (.nextPhase run entry.place) (Step.onSuccess others)) := by
  intro ending
  have hcontroller := controller_conclude entry.phaseRun answer p
  rcases hrun : (entry.phaseRun.conclude answer).run p with ⟨outcome, q⟩
  have hleap : leap p (.settle entry answer) = (.on (afterSettle entry q.sources outcome), q) := by
    rw [leap, hrun]
  refine .on hleap ?_
  rw [hrun] at hcontroller
  have hq : K q.shared.executor.controller := hcontroller ▸ hp
  rw [PhaseRun.run_settle, hrun]
  cases outcome with
  | error e => exact Moment.comes_ended (.error e) (some entry)
  | ok =>
    -- The phase is settled in any case, but the pattern goes on only if its token is live after that.
    change Moment.Comes ⟨ifLive q.sources (.block entry), q⟩
      (proceed ((Step.unlessCancelled run.token ending).run q) _ _)
    rw [ifLive, run_unlessCancelled]
    split
    · exact Moment.comes_ended (.error .cancelled) none
    · have hblock := (sparing_startOption (hflat.phase entry).atEnd run.token q).1
      refine Moment.comes_proceed rfl (fun _ => rfl) fun answer _ => comes_afterBlock hothers ?_ answer
      exact hblock.controller ▸ hq

/-- The children of a phase, with its end and the phases after it. -/
theorem comes_children {point : run.Point} {part : Turn Activity × Machine} (hflat : run.Flat)
    (hothers : run.LooksOn K entry.place others)
    (hleap : leap p point = (.ofTurn (.settle entry) (.inside entry) part.1, part.2))
    (hpart : K part.2.shared.executor.controller) :
    let ending : Step (World.M Activity) := Node.startOption entry.phase.atEnd run.token
    Moment.Comes ⟨point, p⟩
      (proceed (proceed part (.settle entry.phaseRun) (entry.phaseRun.settle ending)) (.nextPhase run entry.place)
        (Step.onSuccess others)) := by
  intro ending
  obtain ⟨turn, q⟩ := part
  cases turn with
  | done answer => exact .on hleap (comes_settle hflat hothers hpart answer)
  | waiting rest =>
    have hafter : Moment.after ⟨point, p⟩ = q := congrArg Prod.snd hleap
    refine ⟨[], _, .here, .inl ⟨.inside entry rest, congrArg Prod.fst hleap, ?_⟩⟩
    rw [hafter]
    rfl

/-- A phase that was entered, with the phases after it. -/
theorem comes_begin (hflat : run.Flat) (hothers : run.LooksOn K entry.place others)
    (hp : K p.shared.executor.controller) :
    let ending : Step (World.M Activity) := Node.startOption entry.phase.atEnd run.token
    Moment.Comes ⟨.begin entry, p⟩
      (proceed (proceed (entry.phaseRun.begin.run p) (.settle entry.phaseRun) (entry.phaseRun.settle ending))
        (.nextPhase run entry.place) (Step.onSuccess others)) := by
  refine comes_children hflat hothers rfl ?_
  rw [(sparing_begin hflat entry p).1.controller]
  exact hp

variable (run) in
/-- A phase that is entered in a run. -/
def entered (place : Fin run.phases.length) (p : Machine) : run.Entry := ⟨place, p.sources.states.length, p.clock.frame⟩

/-- What becomes of the run when a phase is entered. -/
theorem leap_enter {place : Fin run.phases.length} (hlive : ¬ run.token.isCancelled p.sources) :
    ∃ hosts services, leap p (.enter place) =
      (.on (.begin (run.entered place p)), (run.entered place p).phaseRun.afterOpen hosts services p) := by
  obtain ⟨services, hannounce⟩ := run_announce run place p
  obtain ⟨hosts, services, hopen⟩ := PhaseRun.run_open (run.phaseAt place) place run.token
    { p with shared := { p.shared with services } }
  refine ⟨hosts, services, ?_⟩
  rw [leap, if_neg hlive, hannounce, hopen]
  rfl

/-- A phase that is entered, with the phases after it. -/
theorem comes_enter {place : Fin run.phases.length} (hflat : run.Flat) (hothers : run.LooksOn K place others)
    (hp : K p.shared.executor.controller) :
    Moment.Comes ⟨.enter place, p⟩ ((run.enter place (run.phaseAt place).start others).run p) := by
  rw [enter, run_unlessCancelled]
  split
  · rename_i hcancelled
    exact .on (by rw [leap, if_pos hcancelled]) (Moment.comes_ended (.error .cancelled) none)
  · rename_i hlive
    obtain ⟨hosts, services, hleap⟩ := leap_enter hlive
    obtain ⟨services', hannounce⟩ := run_announce run place p
    -- What is announced before a phase reaches the services only.
    let announced : Machine := { p with shared := { p.shared with services := services' } }
    have hopen : ((PhaseRun.open (run.phaseAt place) place run.token).run announced).2 = (leap p (.enter place)).2 := by
      rw [leap, if_neg hlive, hannounce]
    have hstart : ((run.phaseAt place).start place run.token : Step (World.M Activity)).run announced = _ :=
      PhaseRun.run_start hlive
    change Moment.Comes _ (proceed (((run.phaseAt place).start place run.token : Step (World.M Activity)).run
      ((run.announce place).run p).2) (.nextPhase run place) (Step.onSuccess others))
    rw [hannounce, hstart]
    dsimp only
    rw [hopen, hleap]
    exact .on hleap (comes_begin hflat hothers hp)

/-- The frames before a phase, and the phase after them. -/
theorem comes_buffer {place : Fin run.phases.length} {enter : Step (World.M Activity)}
    (henter : Moment.Comes ⟨.enter place, p⟩ (enter.run p)) (left : Nat) :
    Moment.Comes ⟨.stay (.buffer place left), p⟩
      (proceed (((Wait.frames left run.token).step : Step (World.M Activity)).run p) (.enterPhase run place)
        (Step.onSuccess enter)) := by
  rw [run_frames]
  by_cases hcancelled : run.token.isCancelled p.sources
  · have hleap : leap p (.stay (.buffer place left)) = (.on (.ended (.error .cancelled) none), p) := by
      cases left with
      | zero => rw [leap, ifLive, if_pos hcancelled]
      | succ left => rw [leap, if_pos hcancelled]
    rw [if_pos hcancelled]
    exact .on hleap (Moment.comes_ended (.error .cancelled) none)
  · rw [if_neg hcancelled]
    cases left with
    | zero => exact .on (by rw [leap, ifLive, if_neg hcancelled]) henter
    | succ left =>
      have hleap : leap p (.stay (.buffer place (left + 1))) = (.rest (.buffer place left), p) := by
        rw [leap, if_neg hcancelled]
      have hafter : Moment.after ⟨.stay (.buffer place (left + 1)), p⟩ = p := congrArg Prod.snd hleap
      refine ⟨[], _, .here, .inl ⟨.buffer place left, congrArg Prod.fst hleap, ?_⟩⟩
      rw [hafter]
      rfl

/-- A phase without frames before it. -/
theorem comes_unbuffered {place : Fin run.phases.length} {start : Nat → CancelToken → Step (World.M Activity)}
    (henter : Moment.Comes ⟨.enter place, p⟩ ((run.enter place start others).run p)) :
    Moment.Comes ⟨.stay (.buffer place 0), p⟩ ((run.enter place start others).run p) := by
  by_cases hcancelled : run.token.isCancelled p.sources
  · refine .on (by rw [leap, ifLive, if_pos hcancelled]) ?_
    rw [enter, run_unlessCancelled, if_pos hcancelled]
    exact Moment.comes_ended (.error .cancelled) none
  · exact .on (by rw [leap, ifLive, if_neg hcancelled]) henter

end Turns

end PatternRun

/-- Where a controller that was not stopped leads. -/
theorem Controller.next_of_live {c : Controller} (h : c.stopped = false) (current : Option Nat) :
    c.next current = (some (c.forced.getD (current.elim 0 (· + 1))), { c with forced := none }) := by
  obtain ⟨forced, stopped⟩ := c
  obtain rfl : stopped = false := h
  cases forced <;> rfl

theorem Controller.next_of_stopped {c : Controller} (h : c.stopped = true) (current : Option Nat) :
    c.next current = (none, c) := by
  rw [next, h]
  rfl

/-- A run with another controller. -/
def Machine.steered (p : Machine) (controller : Controller) : Machine :=
  { p with shared := { p.shared with executor := { p.shared.executor with controller } } }

theorem run_nextPhase (current : Option Nat) (p : Machine) :
    (Stage.change (World.nextPhase current) : World.M Activity (Option Nat)).run p =
      ((p.shared.executor.controller.next current).1, p.steered (p.shared.executor.controller.next current).2) := rfl

namespace PatternRun

variable {run : PatternRun} {p : Machine}

theorem leap_look (run : PatternRun) (current : Option Nat) (p : Machine) :
    leap p (.look current : run.Point) =
      (.on (run.afterLook p.shared.bufferFrames (p.shared.executor.controller.next current).1),
        p.steered (p.shared.executor.controller.next current).2) := rfl

section Turns

/-- The phases after some phase are visited in one turn, if so many visits are enough. A jump is made at once, and
after it the places only grow. -/
theorem comes_visitWithin (hflat : run.Flat) (count : Nat) (current : Option Nat) (p : Machine)
    (hcount : run.phases.length - p.shared.executor.controller.forced.getD (current.elim 0 (· + 1)) < count) :
    Moment.Comes (⟨.look current, p⟩ : run.Moment)
      ((run.visitWithin (Phase.starts run.phases) count current : Step (World.M Activity)).run p) := by
  induction count generalizing current p with
  | zero => exact absurd hcount (Nat.not_lt_zero _)
  | succ count ih =>
    refine .on (leap_look run current p) ?_
    rw [visitWithin, run_then (run_nextPhase current p)]
    cases hstopped : p.shared.executor.controller.stopped with
    | true =>
      rw [Controller.next_of_stopped hstopped]
      exact Moment.comes_ended (.ok ()) none
    | false =>
      rw [Controller.next_of_live hstopped]
      generalize p.shared.executor.controller.forced.getD (current.elim 0 (· + 1)) = index at hcount
      let controller := { p.shared.executor.controller with forced := none }
      dsimp only [afterLook]
      rw [starts_getElem?]
      by_cases hindex : index < run.phases.length
      · rw [dif_pos hindex, List.getElem?_eq_getElem hindex]
        dsimp only [Option.map_some]
        -- No further jump is made in this turn.
        have hothers : run.LooksOn (· = controller) index (run.visitWithin (Phase.starts run.phases) count (some index)) := by
          intro q hq
          refine ih (some index) q ?_
          rw [hq]
          change run.phases.length - (index + 1) < count
          omega
        by_cases hskip : run.phases[index].props.skip
        · rw [if_pos hskip, if_pos hskip]
          exact hothers _ rfl
        · rw [if_neg hskip, if_neg hskip]
          have hget : (Stage.change get : World.M Activity Machine).run (p.steered controller) = (_, _) := rfl
          have henter : Moment.Comes ⟨.enter ⟨index, hindex⟩, p.steered controller⟩ _ := comes_enter hflat hothers rfl
          rw [run_then hget]
          have hbuffer := comes_buffer henter
          have hframes : (p.steered controller).shared.bufferFrames = p.shared.bufferFrames := rfl
          rw [hframes]
          -- Without frames before it a phase is entered at once, and no wait is made for it.
          cases hframes : p.shared.bufferFrames with
          | zero => exact comes_unbuffered henter
          | succ frames => exact hbuffer (frames + 1)
      · rw [dif_neg hindex, List.getElem?_eq_none (Nat.le_of_not_lt hindex)]
        exact Moment.comes_ended (.ok ()) none

/-- The phases after some phase, in a turn in which any jump may be made. -/
theorem comes_visit (hflat : run.Flat) (current : Option Nat) (p : Machine) :
    Moment.Comes (⟨.look current, p⟩ : run.Moment)
      ((run.visit (Phase.starts run.phases) current : Step (World.M Activity)).run p) :=
  comes_visitWithin hflat _ current p (by omega)

/-- A turn of a pattern that has waited, apart from its boss. -/
theorem comes_activity (hflat : run.Flat) (stay : run.Stay) (p : Machine) :
    Moment.Comes ⟨.stay stay, p⟩ (stay.activity.step p) := by
  have hothers : ∀ place : Fin run.phases.length,
      run.LooksOn (fun _ => True) place (run.visit (Phase.starts run.phases) (some place)) :=
    fun place q _ => comes_visit hflat (some place) q
  cases stay with
  | buffer place left =>
    have hstart : (Phase.starts run.phases : Starts (World.M Activity))[place.val]? = some (run.phaseAt place).start := by
      rw [starts_getElem?, List.getElem?_eq_getElem place.isLt]
      rfl
    have happly : (Continuation.enterPhase run place).apply =
        Step.onSuccess (run.enter place (run.phaseAt place).start (run.visit (Phase.starts run.phases) (some place)) :
          Step (World.M Activity)) := by
      rw [Continuation.apply, hstart]
    have hbuffer := comes_buffer (comes_enter hflat (hothers place) (p := p) trivial) left
    rw [← happly] at hbuffer
    rw [Stay.activity, Activity.step, Activity.turn, Activity.turn]
    exact hbuffer
  | inside entry rest =>
    have hleap : leap p (.stay (.inside entry rest)) =
        (.ofTurn (.settle entry) (.inside entry) (rest.step p).1, (rest.step p).2) := rfl
    rw [Stay.activity, Activity.step, Activity.turn, Activity.turn]
    exact comes_children hflat (hothers entry.place) hleap trivial
  | ending entry rest =>
    have hleap : leap p (.stay (.ending entry rest)) =
        (.ofTurn (afterBlock entry) (.ending entry) (rest.step p).1, (rest.step p).2) := rfl
    rw [Stay.activity, Activity.step, Activity.turn]
    exact Moment.comes_proceed hleap (fun _ => rfl) fun answer _ =>
      comes_afterBlock (hothers entry.place) trivial answer

end Turns

/-! ### Patterns with bosses -/

/-- What is left of a pattern between two turns. -/
def Stay.task (stay : run.Stay) : Activity :=
  match run.props.boss with
  | none => stay.activity
  | some boss => .andThen stay.activity (.closeBoss boss)

/-- The turn of a pattern: it ends where the leaps end. -/
def Ends (c : run.Moment) (turn : Turn Activity × Machine) : Prop :=
  ∃ passed d, Passes c passed d ∧
    ((∃ stay, d.next = .rest stay ∧ turn = (.waiting stay.task, d.after)) ∨
      ∃ answer, d.next = .done answer ∧ turn = (.done answer, d.after))

theorem Moment.Comes.ends {c : run.Moment} {turn : Turn Activity × Machine} (h : c.Comes turn) :
    run.Ends c (match run.props.boss with
      | none => turn
      | some boss => proceed turn (.closeBoss boss) (closeBoss boss)) := by
  obtain ⟨passed, d, hpasses, ⟨stay, hnext, rfl⟩ | ⟨answer, failed, hpoint, rfl⟩⟩ := h
  · refine ⟨passed, d, hpasses, .inl ⟨stay, hnext, ?_⟩⟩
    rw [Stay.task]
    cases run.props.boss <;> rfl
  · have hleap : leap d.before d.point = (.done answer, run.lowered d.before) := by rw [hpoint, leap]
    refine ⟨passed, d, hpasses, .inr ⟨answer, congrArg Prod.fst hleap, ?_⟩⟩
    rw [Moment.after, hleap, lowered]
    cases run.props.boss <;> rfl

/-- The first turn of a pattern. -/
theorem ends_start (hflat : run.Flat) (p : Machine) :
    run.Ends ⟨.start, p⟩ ((run.start (Phase.starts run.phases) : Step (World.M Activity)).run p) := by
  have hleap : leap p (.start : run.Point) = (.on (.look none), run.raised p) := rfl
  have hends := (Moment.Comes.on hleap (comes_visit hflat none _)).ends
  rw [start]
  cases hboss : run.props.boss with
  | none =>
    rw [raised, hboss] at hends
    exact hends
  | some boss =>
    rw [raised, hboss] at hends
    exact hends

/-- A later turn of a pattern. -/
theorem ends_stay (hflat : run.Flat) (stay : run.Stay) (p : Machine) :
    run.Ends ⟨.stay stay, p⟩ (stay.task.step p) := by
  have hends := (comes_activity hflat stay p).ends
  rw [Stay.task]
  cases hboss : run.props.boss with
  | none => rwa [hboss] at hends
  | some boss =>
    rw [hboss] at hends
    rw [Activity.step, Activity.turn]
    exact hends

end PatternRun

end Barrage
