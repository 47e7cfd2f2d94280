import Barrage.Proofs.Machine.Company
import Barrage.Proofs.Machine.Timelines
import Barrage.Proofs.Machine.Waypoints
import Mathlib.Data.List.Chain

/-!
# Journeys of a pattern

The task of a pattern is followed from frame to frame, and its way through each of them from point to point. So the
whole of a run is one sequence of moments: each leads to the next one, in the same turn or after a frame in which
only bystanders and others from outside had their say. What a leap can do is said once; whatever is true of every
run of a pattern is shown from one moment to the next.

## Main definitions

* `PatternRun.Goes`: what a leap can do
* `PatternRun.Travels`: the moments of a pattern, up to some moment
* `PatternRun.Arrives`: the same up to the end of a turn

## Main results

* `PatternRun.goes_leap`: no leap does anything else
* `PatternRun.arrives`: every turn of the task of a pattern is the end of a way
* `PatternRun.Travels.chain`: each moment of a way leads to the next one
* `PatternRun.Arrives.turns`: what is spawned at a moment takes its turn in the same frame
-/

namespace Barrage

open Machine

namespace PatternRun

variable {run : PatternRun} {entry : run.Entry} {p q : Machine}

/-! ### What a leap can do -/

/-- Where a leap leads, unless the pattern is over. -/
def Leap.point? : run.Leap → Option run.Point
  | .on next => some next
  | .rest stay => some (.stay stay)
  | .done _ => none

/-- Points at which a phase has not started yet. -/
inductive Point.Ahead : run.Point → Prop
  | buffer (place : Fin run.phases.length) (left : Nat) : Ahead (.stay (.buffer place left))
  | enter (place : Fin run.phases.length) : Ahead (.enter place)

/-- Points within the children of a phase. -/
inductive Point.Within (entry : run.Entry) : run.Point → Prop
  | begin : Within entry (.begin entry)
  | inside (rest : Activity) : Within entry (.stay (.inside entry rest))

/-- Points within the block for the end of a phase. -/
inductive Point.Ending (entry : run.Entry) : run.Point → Prop
  | block : Ending entry (.block entry)
  | ending (rest : Activity) : Ending entry (.stay (.ending entry rest))

/-- A part of a turn that is like that of a bystander. -/
structure Quiet (p q : Machine) : Prop where
  spares : p.Spares .none q
  spawned : ∃ new, q.spawned = p.spawned ++ new ∧ ∀ a ∈ new, a.Apart .none

/-- What a leap can do to the run, and where it leads. -/
inductive Goes : run.Point → Machine → run.Leap → Machine → Prop
  | raise {p : Machine} : Goes .start p (.on (.look none)) (run.raised p)
  -- The lookups: a place that is no phase ends the pattern like a stop.
  | stop {current : Option Nat} {p : Machine}
    (h : ∀ index, (p.shared.executor.controller.next current).1 = some index → run.phases.length ≤ index) :
    Goes (.look current) p (.on (.ended (.ok ()) none)) (p.steered (p.shared.executor.controller.next current).2)
  | skip {current : Option Nat} {place : Fin run.phases.length} {p : Machine}
    (h : (p.shared.executor.controller.next current).1 = some place.val) (hskip : (run.phaseAt place).props.skip) :
    Goes (.look current) p (.on (.look (some place))) (p.steered (p.shared.executor.controller.next current).2)
  | visit {current : Option Nat} {place : Fin run.phases.length} {p : Machine}
    (h : (p.shared.executor.controller.next current).1 = some place.val) (hskip : ¬ (run.phaseAt place).props.skip) :
    Goes (.look current) p (.on (.stay (.buffer place p.shared.bufferFrames)))
      (p.steered (p.shared.executor.controller.next current).2)
  -- The frames before a phase, and its start.
  | cancel {point : run.Point} {p : Machine} (hpoint : point.Ahead) (h : run.token.isCancelled p.sources) :
    Goes point p (.on (.ended (.error .cancelled) none)) p
  | buffered {place : Fin run.phases.length} {p : Machine} (h : ¬ run.token.isCancelled p.sources) :
    Goes (.stay (.buffer place 0)) p (.on (.enter place)) p
  | buffer {place : Fin run.phases.length} {left : Nat} {p : Machine} (h : ¬ run.token.isCancelled p.sources) :
    Goes (.stay (.buffer place (left + 1))) p (.rest (.buffer place left)) p
  | enter {place : Fin run.phases.length} {p : Machine} (h : ¬ run.token.isCancelled p.sources) (hosts : Hosts)
    (services : Services) :
    Goes (.enter place) p (.on (.begin (run.entered place p))) ((run.entered place p).phaseRun.afterOpen hosts services p)
  -- The children of a phase, which do as they like but for what bystanders leave alone.
  | children {point : run.Point} {entry : run.Entry} {p q : Machine} (hpoint : point.Within entry) (h : Quiet p q)
    (answer : Except MachineError Unit) : Goes point p (.on (.settle entry answer)) q
  | inside {point : run.Point} {entry : run.Entry} {p q : Machine} (hpoint : point.Within entry) (h : Quiet p q)
    {rest : Activity} (hrest : rest.Apart .none) : Goes point p (.rest (.inside entry rest)) q
  -- The end of a phase: it is forgotten in both cases, but only one of them tells of it.
  | fail {entry : run.Entry} {answer : Except MachineError Unit} {e : MachineError} {p : Machine}
    (h : entry.phaseRun.causeOf p answer = .error e) :
    Goes (.settle entry answer) p (.on (.ended (.error e) (some entry)))
      { p with sources := p.sources.cancel entry.source, shared := entry.phaseRun.forgotten p.shared }
  | settle {entry : run.Entry} {answer : Except MachineError Unit} {cause : ClearCause} {p q : Machine}
    (h : entry.phaseRun.causeOf p answer = .ok cause) {services : Services}
    (hq : q = entry.phaseRun.afterConclude cause services p) {there : run.Point}
    (hthere : there = ifLive q.sources (.block entry)) : Goes (.settle entry answer) p (.on there) q
  -- The block for the end of a phase.
  | block {point : run.Point} {entry : run.Entry} {p q : Machine} (hpoint : point.Ending entry) (h : Quiet p q)
    {answer : Except MachineError Unit} {there : run.Point} (hthere : there = afterBlock entry answer) :
    Goes point p (.on there) q
  | ending {point : run.Point} {entry : run.Entry} {p q : Machine} (hpoint : point.Ending entry) (h : Quiet p q)
    {rest : Activity} (hrest : rest.Apart .none) : Goes point p (.rest (.ending entry rest)) q
  | lower {answer : Except MachineError Unit} {failed : Option run.Entry} {p : Machine} :
    Goes (.ended answer failed) p (.done answer) (run.lowered p)

/-- The leap from the end of the children of a phase. -/
theorem Goes.of_settle {answer : Except MachineError Unit} {next : run.Leap} (h : Goes (.settle entry answer) p next q) :
    (∃ e, entry.phaseRun.causeOf p answer = .error e ∧ next = .on (.ended (.error e) (some entry))) ∨
      ∃ cause services, entry.phaseRun.causeOf p answer = .ok cause ∧
        q = entry.phaseRun.afterConclude cause services p ∧ next = .on (ifLive q.sources (.block entry)) := by
  cases h with
  | fail h => exact .inl ⟨_, h, rfl⟩
  | settle h hq hthere => exact .inr ⟨_, _, h, hq, congrArg Leap.on hthere⟩
  | cancel hpoint | children hpoint | inside hpoint | block hpoint | ending hpoint => cases hpoint

/-- A pattern is done at its end only. -/
theorem Goes.to_done {point : run.Point} {answer : Except MachineError Unit} (h : Goes point p (.done answer) q) :
    ∃ failed, point = .ended answer failed ∧ q = run.lowered p := by
  cases h with
  | lower => exact ⟨_, rfl, rfl⟩

/-- The leap to the end of a pattern of which a phase has failed. -/
theorem Goes.to_failed {point : run.Point} {answer : Except MachineError Unit}
    (h : Goes point p (.on (.ended answer (some entry))) q) :
    ∃ e, point = .settle entry (.error e) ∧ e.isCancellation = false ∧ answer = .error e := by
  cases h with
  | fail h =>
    obtain ⟨rfl, he⟩ := PhaseRun.causeOf_eq_error_iff.1 h
    exact ⟨_, rfl, he, rfl⟩
  | settle _ _ hthere =>
    unfold ifLive at hthere
    split at hthere <;> cases hthere
  | @block _ _ _ _ _ _ answer' _ hthere => cases answer' <;> cases hthere

/-- What a pattern leaves between two turns has no phases and patterns in it. -/
def Point.Fits : run.Point → Prop
  | .stay (.inside _ rest) => rest.Apart .none
  | .stay (.ending _ rest) => rest.Apart .none
  | _ => True

/-- The children of a phase in a turn. -/
theorem goes_children {point : run.Point} {part : Turn Activity × Machine} (hpoint : point.Within entry)
    (hpart : Quiet p part.2 ∧ part.1.Leaves (Activity.Apart .none)) :
    Goes point p (.ofTurn (.settle entry) (.inside entry) part.1) part.2 := by
  obtain ⟨turn, q⟩ := part
  cases turn with
  | done answer => exact .children hpoint hpart.1 answer
  | waiting rest => exact .inside hpoint hpart.1 hpart.2

/-- The block for the end of a phase in a turn. -/
theorem goes_block {point : run.Point} {part : Turn Activity × Machine} (hpoint : point.Ending entry)
    (hpart : Quiet p part.2 ∧ part.1.Leaves (Activity.Apart .none)) :
    Goes point p (.ofTurn (afterBlock entry) (.ending entry) part.1) part.2 := by
  obtain ⟨turn, q⟩ := part
  cases turn with
  | done answer => exact .block hpoint hpart.1 rfl
  | waiting rest => exact .ending hpoint hpart.1 hpart.2

theorem quiet_of_sparing {y : Step (World.M Activity)} (h : SparingTurn .none y) (p : Machine) :
    Quiet p (y.run p).2 ∧ (y.run p).1.Leaves (Activity.Apart .none) :=
  ⟨⟨(h p).1, (h p).2.1⟩, (h p).2.2⟩

/-- The lookup of the next phase. -/
theorem goes_look (run : PatternRun) (current : Option Nat) (p : Machine) :
    Goes (.look current : run.Point) p (leap p (.look current : run.Point)).1 (leap p (.look current : run.Point)).2 := by
  rw [leap_look]
  dsimp only [afterLook]
  cases hnext : (p.shared.executor.controller.next current).1 with
  | none => exact .stop (by simp [hnext])
  | some index =>
    dsimp only
    split
    · rename_i hindex
      split
      · rename_i hskip
        exact @Goes.skip run current ⟨index, hindex⟩ p hnext hskip
      · rename_i hskip
        exact @Goes.visit run current ⟨index, hindex⟩ p hnext hskip
    · rename_i hindex
      exact .stop fun other hother => by
        obtain rfl := Option.some.inj (hnext.symm.trans hother)
        omega

/-- A frame before a phase. -/
theorem goes_buffer (place : Fin run.phases.length) (left : Nat) (p : Machine) :
    Goes (.stay (.buffer place left)) p (leap p (.stay (.buffer place left))).1 (leap p (.stay (.buffer place left))).2 := by
  by_cases hcancelled : run.token.isCancelled p.sources
  · cases left with
    | zero =>
      rw [leap, ifLive, if_pos hcancelled]
      exact .cancel (.buffer place 0) hcancelled
    | succ left =>
      rw [leap, if_pos hcancelled]
      exact .cancel (.buffer place (left + 1)) hcancelled
  · cases left with
    | zero =>
      rw [leap, ifLive, if_neg hcancelled]
      exact .buffered hcancelled
    | succ left =>
      rw [leap, if_neg hcancelled]
      exact .buffer hcancelled

/-- The end of a phase. -/
theorem goes_settle (entry : run.Entry) (answer : Except MachineError Unit) (p : Machine) :
    Goes (.settle entry answer) p (leap p (.settle entry answer)).1 (leap p (.settle entry answer)).2 := by
  rw [leap]
  cases hcause : entry.phaseRun.causeOf p answer with
  | error e =>
    rw [PhaseRun.run_conclude_of_error hcause]
    exact .fail hcause
  | ok cause =>
    obtain ⟨services, hrun⟩ := PhaseRun.run_conclude hcause
    rw [hrun]
    exact .settle hcause rfl rfl

/-- No leap does anything else. -/
theorem goes_leap (hflat : run.Flat) {point : run.Point} (h : point.Fits) (p : Machine) :
    Goes point p (leap p point).1 (leap p point).2 := by
  cases point with
  | start => exact .raise
  | look current => exact goes_look run current p
  | stay stay =>
    cases stay with
    | buffer place left => exact goes_buffer place left p
    | inside entry rest => exact goes_children (.inside rest) (quiet_of_sparing (Activity.sparing_turn rest h) p)
    | ending entry rest => exact goes_block (.ending rest) (quiet_of_sparing (Activity.sparing_turn rest h) p)
  | enter place =>
    by_cases hcancelled : run.token.isCancelled p.sources
    · rw [leap, if_pos hcancelled]
      exact .cancel (.enter place) hcancelled
    · obtain ⟨hosts, services, hleap⟩ := leap_enter hcancelled
      rw [hleap]
      exact .enter hcancelled hosts services
  | begin entry => exact goes_children .begin (quiet_of_sparing (sparing_begin hflat entry) p)
  | settle entry answer => exact goes_settle entry answer p
  | block entry =>
    exact goes_block .block (quiet_of_sparing (sparing_startOption (hflat.phase entry).atEnd run.token) p)
  | ended answer failed => exact .lower

/-- What is left between two turns where a leap leads. -/
def Leap.Fits : run.Leap → Prop
  | .on next => next.Fits
  | .rest stay => (Point.stay stay).Fits
  | .done _ => True

theorem Goes.fits {point : run.Point} {next : run.Leap} (h : Goes point p next q) : next.Fits := by
  cases h with
  | inside _ _ hrest => exact hrest
  | ending _ _ hrest => exact hrest
  | settle _ _ hthere =>
    subst hthere
    unfold ifLive
    split <;> trivial
  | @block _ _ _ _ _ _ answer _ hthere =>
    subst hthere
    cases answer <;> trivial
  | _ => trivial

/-- All that a pattern spawns are bystanders. -/
theorem Goes.spawned {point : run.Point} {next : run.Leap} (hflat : run.Flat) (h : Goes point p next q) :
    ∃ new, q.spawned = p.spawned ++ new ∧ ∀ a ∈ new, a.Apart .none := by
  cases h with
  | raise =>
    refine ⟨[], ?_, by simp⟩
    rw [raised, List.append_nil]
    cases run.props.boss <;> rfl
  | lower =>
    refine ⟨[], ?_, by simp⟩
    rw [lowered, List.append_nil]
    cases run.props.boss <;> rfl
  | enter _ hosts services =>
    refine ⟨_, rfl, fun a ha => ?_⟩
    split at ha
    · rw [List.mem_singleton.1 ha]
      exact .andThen .wait List.not_mem_nil
    · cases ha
  | @settle entry _ _ _ _ _ _ hq _ _ =>
    subst hq
    refine ⟨_, rfl, fun a ha => ?_⟩
    unfold PhaseRun.leaves at ha
    split at ha
    · obtain ⟨node, hnode, rfl⟩ := List.mem_map.1 ha
      exact .start ((hflat.phase entry).atCut node (Option.mem_toList.1 hnode))
    · cases ha
  | children _ h | inside _ h | block _ h | ending _ h => exact h.spawned
  | _ => exact ⟨[], (List.append_nil _).symm, by simp⟩

theorem Moment.goes (hflat : run.Flat) {c : run.Moment} (h : c.point.Fits) : Goes c.point c.before c.next c.after :=
  goes_leap hflat h c.before

/-! ### Turns -/

/-- The moments that are passed in a turn spawn bystanders only. -/
theorem Passes.spawned (hflat : run.Flat) {c d : run.Moment} {passed : List run.Moment} (h : Passes c passed d)
    (hfits : c.point.Fits) :
    d.point.Fits ∧ ∃ new, d.before.spawned = c.before.spawned ++ new ∧ ∀ a ∈ new, a.Apart .none := by
  induction h with
  | here => exact ⟨hfits, [], (List.append_nil _).symm, by simp⟩
  | @on c d point passed hnext _ ih =>
    have hgoes := c.goes hflat hfits
    have hfitsNext : c.next.Fits := hgoes.fits
    rw [hnext] at hfitsNext
    obtain ⟨hfits', more, hmore, hmoreApart⟩ := ih hfitsNext
    obtain ⟨new, hnew, hnewApart⟩ := hgoes.spawned hflat
    refine ⟨hfits', new ++ more, ?_, fun a ha => (List.mem_append.1 ha).elim (hnewApart a) (hmoreApart a)⟩
    rw [hmore, hnew, List.append_assoc]

/-- The turn of a task at some point of a pattern is made of leaps. -/
def Point.CarriedBy (point : run.Point) (task : Activity) : Prop :=
  ∃ a, task.Carries a ∧ ∀ p, run.Ends ⟨point, p⟩ (a.step p)

variable {task : Activity}

theorem carriedBy_start (hflat : run.Flat)
    (htask : (Node.pattern run.props run.phases).IsTask run.token task) :
    (Point.start : run.Point).CarriedBy task := by
  refine ⟨.start (.pattern run.props run.phases) run.token, htask, fun p => ?_⟩
  rw [Activity.step, Activity.turn, Node.start]
  exact ends_start hflat p

theorem carriedBy_stay (hflat : run.Flat) {stay : run.Stay} (htask : task.Carries stay.task) :
    (Point.stay stay).CarriedBy task := ⟨stay.task, htask, ends_stay hflat stay⟩

theorem Point.CarriedBy.spawnsApart (hflat : run.Flat) {point : run.Point} (h : point.CarriedBy task)
    (hfits : point.Fits) : SpawnsApart task := by
  intro p
  obtain ⟨a, hcarries, hends⟩ := h
  obtain ⟨⟨outcome, hrun⟩, -⟩ := hcarries.step p
  obtain ⟨passed, d, hpasses, hend⟩ := hends p
  obtain ⟨hfits', new, hnew, hnewApart⟩ := hpasses.spawned hflat hfits
  have hafter : (a.step p).2 = d.after := by
    obtain ⟨_, -, hturn⟩ | ⟨_, -, hturn⟩ := hend <;> rw [hturn]
  obtain ⟨more, hmore, hmoreApart⟩ := (d.goes hflat hfits').spawned hflat
  refine ⟨new ++ more, ?_, fun a ha => (List.mem_append.1 ha).elim (hnewApart a) (hmoreApart a)⟩
  rw [hrun, hafter]
  exact hmore.trans (by rw [hnew, List.append_assoc])

/-! ### From frame to frame -/

/-- The moments of a pattern in a run, up to some moment: from one to the next in the same turn, or over the end of a
frame into the next one. -/
inductive Travels (run : PatternRun) (acts : Nat → List Outside) (dt : Float) (m : Machine) (start : Nat) :
    Nat → List run.Moment → run.Moment → Prop
  | start {poll : Machine.Poll} (hfollow : follow acts dt m start 0 = some poll) (hspares : m.Spares .none poll.before) :
    Travels run acts dt m start 0 [] ⟨.start, poll.before⟩
  | on {n : Nat} {passed : List run.Moment} {c : run.Moment} {point : run.Point}
    (h : Travels run acts dt m start n passed c) (hnext : c.next = .on point) :
    Travels run acts dt m start n (passed ++ [c]) ⟨point, c.after⟩
  | rest {n : Nat} {passed : List run.Moment} {c : run.Moment} {stay : run.Stay} {poll : Machine.Poll}
    (h : Travels run acts dt m start n passed c) (hnext : c.next = .rest stay)
    (hends : EndsFrame acts dt m start n c.after) (hfollow : follow acts dt m start (n + 1) = some poll)
    (hbetween : Between (acts (n + 1)) c.after poll.before) :
    Travels run acts dt m start (n + 1) (passed ++ [c]) ⟨.stay stay, poll.before⟩

variable {acts : Nat → List Outside} {dt : Float} {m : Machine} {start n : Nat} {poll : Machine.Poll}
  {passed : List run.Moment} {c d : run.Moment}

theorem Travels.passes (h : Travels run acts dt m start n passed c) {more : List run.Moment} (hpasses : Passes c more d) :
    Travels run acts dt m start n (passed ++ more) d := by
  induction hpasses generalizing passed with
  | here => rwa [List.append_nil]
  | on hnext _ ih =>
    have := ih (h.on hnext)
    rwa [List.append_assoc] at this

theorem Travels.fits (hflat : run.Flat) (h : Travels run acts dt m start n passed c) : c.point.Fits := by
  induction h with
  | start => trivial
  | on _ hnext ih =>
    have hfits := (Moment.goes hflat ih).fits
    rwa [hnext] at hfits
  | rest _ hnext _ _ _ ih =>
    have hfits := (Moment.goes hflat ih).fits
    rwa [hnext] at hfits

/-- A turn of the task of a pattern: its way leads to the end of the turn or of the pattern. What came of a pattern
may be kept in the run. -/
theorem Travels.turn (h : Travels run acts dt m start n passed c) (hbefore : c.before = poll.before)
    (hcarried : c.point.CarriedBy poll.task) :
    ∃ passed d, Travels run acts dt m start n passed d ∧
      (∃ outcome, poll.after = { d.after with shared := { d.after.shared with outcome } }) ∧
      ((∃ stay rest, d.next = .rest stay ∧ (poll.task.step poll.before).1 = .waiting rest ∧ rest.Carries stay.task) ∨
        ∃ answer, d.next = .done answer ∧ (poll.task.step poll.before).1 = .done answer) := by
  obtain ⟨a, hcarries, hends⟩ := hcarried
  obtain ⟨more, d, hpasses, hend⟩ := hends c.before
  obtain ⟨⟨outcome, hrun⟩, hdone, hwaits⟩ := hcarries.step poll.before
  rw [← hbefore] at hrun hdone hwaits
  refine ⟨passed ++ more, d, h.passes hpasses, ⟨outcome, ?_⟩, ?_⟩
  · rw [Poll.after_eq, ← hbefore, hrun]
    obtain ⟨_, -, hturn⟩ | ⟨_, -, hturn⟩ := hend <;> rw [hturn]
  · rw [← hbefore]
    obtain ⟨stay, hnext, hturn⟩ | ⟨answer, hnext, hturn⟩ := hend
    · obtain ⟨rest, hrest, hcarries'⟩ := hwaits stay.task (by rw [hturn])
      exact .inl ⟨stay, rest, hnext, hrest, hcarries'⟩
    · exact .inr ⟨answer, hnext, hdone answer (by rw [hturn])⟩

/-- Every turn of the task of a pattern is on its way. -/
theorem travels (hflat : run.Flat) (hcompany : m.Company task start)
    (htask : (Node.pattern run.props run.phases).IsTask run.token task)
    (hfollow : follow acts dt m start n = some poll) :
    ∃ passed c, Travels run acts dt m start n passed c ∧ c.before = poll.before ∧ c.point.CarriedBy poll.task ∧
      TakesTurn acts dt m start n poll := by
  induction n generalizing poll with
  | zero =>
    have hcarried := carriedBy_start hflat htask
    have hcompany' : (states acts dt m 0).Company task start := hcompany
    obtain ⟨p, hturn⟩ := hcompany'.takesTurn (hcarried.spawnsApart hflat trivial) rfl
    obtain rfl : poll = ⟨task, p⟩ := Option.some.inj (hfollow.symm.trans hturn.follow)
    exact ⟨[], _, .start hfollow hturn.spares, rfl, hcarried, hturn⟩
  | succ n ih =>
    -- The task took its turn in the frame before, and was not finished.
    obtain ⟨last, hlast⟩ : ∃ last, follow acts dt m start n = some last :=
      Option.ne_none_iff_exists'.1 fun hnone => by simp [follow_none_succ hnone] at hfollow
    obtain ⟨passed, c, htravels, hbefore, hcarried, hturn⟩ := ih hlast
    have hspawns := hcarried.spawnsApart hflat (htravels.fits hflat)
    obtain ⟨hends, hnext⟩ := hturn.next hspawns
    obtain ⟨passed, d, htravels, ⟨outcome, hafter⟩, ⟨stay, rest, hstay, hrest, hcarries⟩ | ⟨answer, -, hdone⟩⟩ :=
      htravels.turn hbefore hcarried
    · have hfits : (Point.stay stay).Fits := by
        have := (Moment.goes hflat (htravels.fits hflat)).fits
        rwa [hstay] at this
      have hcarried' := carriedBy_stay hflat hcarries
      obtain ⟨next, hturn', hbetween⟩ :=
        hnext rest (by rw [Poll.kept_eq, hrest]; rfl) (hcarried'.spawnsApart hflat hfits)
      obtain rfl : poll = ⟨rest, next⟩ := Option.some.inj (hfollow.symm.trans hturn'.follow)
      rw [hafter] at hends hbetween
      refine ⟨_, _, htravels.rest hstay ⟨hends.phaseEvents, hends.turns⟩ hfollow ?_, rfl, hcarried', hturn'⟩
      exact ⟨hbetween.clock, ⟨hbetween.steers.executor, hbetween.steers.campaign, hbetween.steers.bufferFrames⟩,
        hbetween.phaseEvents⟩
    · have hnone := follow_succ_of_finished hlast (by rw [Poll.kept_eq, hdone]; rfl)
      simp [hnone] at hfollow

/-- The way of a pattern up to the end of a turn of its task. -/
structure Arrives (run : PatternRun) (acts : Nat → List Outside) (dt : Float) (m : Machine) (start n : Nat)
    (poll : Machine.Poll) (passed : List run.Moment) (last : run.Moment) : Prop where
  travels : Travels run acts dt m start n passed last
  ends : EndsFrame acts dt m start n last.after
  after : ∃ outcome, poll.after = { last.after with shared := { last.after.shared with outcome } }
  turn : (∃ stay rest, last.next = .rest stay ∧ (poll.task.step poll.before).1 = .waiting rest) ∨
    ∃ answer, last.next = .done answer ∧ (poll.task.step poll.before).1 = .done answer

/-- Every turn of the task of a pattern is the end of a way. -/
theorem arrives (hflat : run.Flat) (hcompany : m.Company task start)
    (htask : (Node.pattern run.props run.phases).IsTask run.token task)
    (hfollow : follow acts dt m start n = some poll) :
    ∃ passed last, Arrives run acts dt m start n poll passed last := by
  obtain ⟨passed, c, htravels, hbefore, hcarried, hturn⟩ := travels hflat hcompany htask hfollow
  obtain ⟨hends, -⟩ := hturn.next (hcarried.spawnsApart hflat (htravels.fits hflat))
  obtain ⟨passed, last, htravels, ⟨outcome, hafter⟩, hlast⟩ := htravels.turn hbefore hcarried
  rw [hafter] at hends
  refine ⟨passed, last, htravels, ⟨hends.phaseEvents, hends.turns⟩, ⟨outcome, hafter⟩, ?_⟩
  rcases hlast with ⟨stay, rest, hnext, hrest, -⟩ | hdone
  · exact .inl ⟨stay, rest, hnext, hrest⟩
  · exact .inr hdone

/-- The end of the task of a pattern is the end of its way. -/
theorem Arrives.is_done (hflat : run.Flat) (h : Arrives run acts dt m start n poll passed c)
    {answer : Except MachineError Unit} (hdone : (poll.task.step poll.before).1 = .done answer) :
    ∃ failed, c.point = .ended answer failed ∧ c.after = run.lowered c.before := by
  rcases h.turn with ⟨_, rest, -, hrest⟩ | ⟨answer', hnext, hdone'⟩
  · rw [hdone] at hrest
    cases hrest
  · obtain rfl := Turn.done.inj (hdone.symm.trans hdone')
    have hgoes := c.goes hflat (h.travels.fits hflat)
    rw [hnext] at hgoes
    exact hgoes.to_done

/-! ### The moments of a way -/

/-- One moment of a way comes right after another one: in the same turn, or in the next frame. -/
def Moment.Leads (c d : run.Moment) : Prop :=
  (c.next = .on d.point ∧ d.before = c.after) ∨ ∃ stay, c.next = .rest stay ∧ d.point = .stay stay

/-- A way begins at the start of the pattern, and each of its moments leads to the next one. -/
theorem Travels.chain (h : Travels run acts dt m start n passed c) :
    (passed ++ [c]).IsChain Moment.Leads ∧ ∃ p more, passed ++ [c] = ⟨.start, p⟩ :: more := by
  have hsnoc : ∀ {passed : List run.Moment} {c d : run.Moment}, c.Leads d →
      ((passed ++ [c]).IsChain Moment.Leads ∧ ∃ p more, passed ++ [c] = ⟨.start, p⟩ :: more) →
      (passed ++ [c] ++ [d]).IsChain Moment.Leads ∧ ∃ p more, passed ++ [c] ++ [d] = ⟨.start, p⟩ :: more := by
    rintro passed c d hleads ⟨hchain, p, more, hstart⟩
    refine ⟨List.isChain_append.2 ⟨hchain, .singleton d, fun x hx y hy => ?_⟩, p, more ++ [d], by rw [hstart]; rfl⟩
    rw [List.getLast?_concat] at hx
    cases hx
    cases hy
    exact hleads
  induction h with
  | start => exact ⟨.singleton _, _, [], rfl⟩
  | on _ hnext ih => exact hsnoc (.inl ⟨hnext, rfl⟩) ih
  | rest _ hnext _ _ _ ih => exact hsnoc (.inr ⟨_, hnext, rfl⟩) ih

variable {earlier later : List run.Moment}

/-- The first moment of a way is the start of the pattern, and each other one comes right after another one. -/
theorem Travels.before (h : Travels run acts dt m start n passed c) (hway : passed ++ [c] = earlier ++ d :: later) :
    d.point = .start ∧ earlier = [] ∨ ∃ front last, earlier = front ++ [last] ∧ last.Leads d := by
  obtain ⟨hchain, p, more, hstart⟩ := h.chain
  rw [hway] at hstart hchain
  rcases List.eq_nil_or_concat earlier with rfl | ⟨front, last, rfl⟩
  · cases hstart
    exact .inl ⟨rfl, rfl⟩
  · rw [List.concat_eq_append, List.append_assoc] at hchain
    obtain ⟨-, hleads, -⟩ := List.isChain_append_cons_cons.1 hchain
    exact .inr ⟨front, last, List.concat_eq_append, hleads⟩

/-- A moment that leads on in the same turn is not the last one. -/
theorem Arrives.goes_on (h : Arrives run acts dt m start n poll passed c) (hway : passed ++ [c] = earlier ++ d :: later)
    {point : run.Point} (hnext : d.next = .on point) :
    ∃ next rest, later = next :: rest ∧ next.before = d.after ∧ next.point = point := by
  cases later with
  | nil =>
    obtain ⟨-, hlast⟩ := List.append_inj' hway rfl
    obtain rfl := (List.cons.inj hlast).1
    rcases h.turn with ⟨_, _, hlast, -⟩ | ⟨_, hlast, -⟩ <;> cases hnext.symm.trans hlast
  | cons next rest =>
    obtain ⟨hchain, -⟩ := h.travels.chain
    rw [hway] at hchain
    obtain ⟨-, hleads, -⟩ := List.isChain_append_cons_cons.1 hchain
    rcases hleads with ⟨hon, hbefore⟩ | ⟨_, hrest, -⟩
    · exact ⟨next, rest, rfl, hbefore, (Leap.on.inj (hnext.symm.trans hon)).symm⟩
    · cases hnext.symm.trans hrest

/-- Nothing comes after the end of a pattern. -/
theorem Travels.nothing_after (h : Travels run acts dt m start n passed c)
    (hway : passed ++ [c] = earlier ++ d :: later) {answer : Except MachineError Unit} (hnext : d.next = .done answer) :
    later = [] := by
  cases later with
  | nil => rfl
  | cons next rest =>
    obtain ⟨hchain, -⟩ := h.chain
    rw [hway] at hchain
    obtain ⟨-, hleads, -⟩ := List.isChain_append_cons_cons.1 hchain
    rcases hleads with ⟨hon, -⟩ | ⟨_, hrest, -⟩
    · cases hnext.symm.trans hon
    · cases hnext.symm.trans hrest

/-- A leap takes no time, and leaves the number of frames before phases as it is. -/
theorem Goes.keeps {point : run.Point} {next : run.Leap} (h : Goes point p next q) :
    q.clock = p.clock ∧ q.shared.bufferFrames = p.shared.bufferFrames := by
  cases h with
  | raise =>
    rw [raised]
    cases run.props.boss <;> exact ⟨rfl, rfl⟩
  | lower =>
    rw [lowered]
    cases run.props.boss <;> exact ⟨rfl, rfl⟩
  | fail =>
    rw [PhaseRun.forgotten_eq]
    exact ⟨rfl, rfl⟩
  | settle _ hq _ =>
    rw [hq]
    exact ⟨rfl, rfl⟩
  | children _ h | inside _ h | block _ h | ending _ h => exact ⟨h.spares.clock, h.spares.bufferFrames⟩
  | _ => exact ⟨rfl, rfl⟩

/-- The frame of a moment. -/
theorem Travels.frame (hflat : run.Flat) (h : Travels run acts dt m start n passed c) :
    c.before.clock.frame = m.clock.frame + n := by
  induction h with
  | start hfollow => exact follow_clock hfollow ▸ rfl
  | @on n passed c point h hnext ih => exact (congrArg (·.frame) (c.goes hflat (h.fits hflat)).keeps.1).trans ih
  | rest _ _ _ hfollow => rw [follow_clock hfollow]

theorem Travels.bufferFrames (hflat : run.Flat) (h : Travels run acts dt m start n passed c) :
    c.before.shared.bufferFrames = m.shared.bufferFrames := by
  induction h with
  | start _ hspares => exact hspares.bufferFrames
  | @on n passed c point h hnext ih => exact (c.goes hflat (h.fits hflat)).keeps.2.trans ih
  | @rest n passed c stay poll h _ _ _ hbetween ih =>
    exact hbetween.steers.bufferFrames.trans ((c.goes hflat (h.fits hflat)).keeps.2.trans ih)

/-- A moment of a way is the last one, or it was passed. -/
theorem split_way (hway : passed ++ [c] = earlier ++ d :: later) :
    earlier = passed ∧ d = c ∨ ∃ front, passed = earlier ++ d :: front := by
  rcases List.append_eq_append_iff.1 hway with ⟨more, hearlier, hlast⟩ | ⟨more, hpassed, hlast⟩
  · obtain ⟨rfl, hlast⟩ | ⟨rfl, hlast⟩ := List.singleton_eq_append_iff.1 hlast
    · cases hlast
      exact .inl ⟨by rw [hearlier, List.append_nil], rfl⟩
    · cases hlast
  · cases more with
    | nil =>
      cases hlast
      exact .inl ⟨by rw [hpassed, List.append_nil], rfl⟩
    | cons first front =>
      obtain ⟨rfl, -⟩ := List.cons.inj hlast
      exact .inr ⟨front, hpassed⟩

/-- The moments that were passed are on the way as well. -/
theorem Travels.to_moment (h : Travels run acts dt m start n passed c) (hway : passed ++ [c] = earlier ++ d :: later) :
    ∃ k, Travels run acts dt m start k earlier d := by
  induction h generalizing later with
  | start hfollow hspares =>
    rcases split_way hway with ⟨rfl, rfl⟩ | ⟨front, hpassed⟩
    · exact ⟨_, .start hfollow hspares⟩
    · simp at hpassed
  | on h hnext ih =>
    rcases split_way hway with ⟨rfl, rfl⟩ | ⟨front, hpassed⟩
    · exact ⟨_, h.on hnext⟩
    · exact ih hpassed
  | rest h hnext hends hfollow hbetween ih =>
    rcases split_way hway with ⟨rfl, rfl⟩ | ⟨front, hpassed⟩
    · exact ⟨_, h.rest hnext hends hfollow hbetween⟩
    · exact ih hpassed

theorem Travels.goes_of_mem (hflat : run.Flat) (h : Travels run acts dt m start n passed c) (hd : d ∈ passed ++ [c]) :
    Goes d.point d.before d.next d.after := by
  obtain ⟨earlier, later, hway⟩ := List.append_of_mem hd
  obtain ⟨k, hd⟩ := h.to_moment hway
  exact d.goes hflat (hd.fits hflat)

/-- The failure of the children of a phase is the end of the way. -/
theorem Arrives.after_failed (hflat : run.Flat) (h : Arrives run acts dt m start n poll passed c)
    (hway : passed ++ [c] = earlier ++ d :: later) {e : MachineError} (hpoint : d.point = .settle entry (.error e))
    (he : e.isCancellation = false) : ∃ next, later = [next] ∧ next.point = .ended (.error e) (some entry) := by
  have hnext : d.next = .on (.ended (.error e) (some entry)) := by
    have hgoes := h.travels.goes_of_mem hflat (d := d) (by rw [hway]; simp)
    rw [hpoint] at hgoes
    obtain ⟨e', hcause, hnext⟩ | ⟨_, _, hcause, -⟩ := hgoes.of_settle
    · obtain ⟨heq, -⟩ := PhaseRun.causeOf_eq_error_iff.1 hcause
      cases heq
      exact hnext
    · rw [PhaseRun.causeOf_eq_error_iff.2 ⟨rfl, he⟩] at hcause
      cases hcause
  obtain ⟨⟨point, p⟩, rest, rfl, -, rfl⟩ := h.goes_on hway hnext
  have hrest : rest = [] := h.travels.nothing_after (d := ⟨.ended (.error e) (some entry), p⟩)
    (by rw [hway, List.append_cons]) rfl
  exact ⟨_, by rw [hrest], rfl⟩

/-- What is spawned at a moment takes its turn in the same frame, or the turn of the pattern is not over yet. -/
theorem Travels.spawned (hflat : run.Flat) (h : Travels run acts dt m start n passed c) :
    ∀ d ∈ passed, ∃ k, d.before.clock.frame = m.clock.frame + k ∧ ∀ a ∈ d.after.spawned,
      TurnAfter acts dt m start k a ∨ k = n ∧ a ∈ c.before.spawned := by
  induction h with
  | start => simp
  | @on n passed c point h hnext ih =>
    intro d hd
    rcases List.mem_append.1 hd with hd | hd
    · obtain ⟨k, hframe, hspawned⟩ := ih d hd
      obtain ⟨new, hnew, -⟩ := (c.goes hflat (h.fits hflat)).spawned hflat
      refine ⟨k, hframe, fun a ha => (hspawned a ha).imp_right fun ⟨hk, ha⟩ => ⟨hk, ?_⟩⟩
      rw [hnew]
      exact List.mem_append_left new ha
    · obtain rfl := List.mem_singleton.1 hd
      exact ⟨n, h.frame hflat, fun a ha => .inr ⟨rfl, ha⟩⟩
  | @rest n passed c stay poll h hnext hends hfollow hbetween ih =>
    intro d hd
    rcases List.mem_append.1 hd with hd | hd
    · -- What was still to take its turn takes it before this frame ends.
      obtain ⟨k, hframe, hspawned⟩ := ih d hd
      obtain ⟨new, hnew, -⟩ := (c.goes hflat (h.fits hflat)).spawned hflat
      refine ⟨k, hframe, fun a ha => .inl ?_⟩
      rcases hspawned a ha with hturn | ⟨rfl, ha⟩
      · exact hturn
      · refine hends.turns a ?_
        rw [hnew]
        exact List.mem_append_left new ha
    · obtain rfl := List.mem_singleton.1 hd
      exact ⟨n, h.frame hflat, fun a ha => .inl (hends.turns a ha)⟩

/-- What is spawned at a moment takes its turn in the same frame, after the pattern. -/
theorem Arrives.turns (hflat : run.Flat) (h : Arrives run acts dt m start n poll passed c) (hd : d ∈ passed ++ [c]) :
    ∃ k, d.before.clock.frame = m.clock.frame + k ∧ ∀ a ∈ d.after.spawned, TurnAfter acts dt m start k a := by
  rcases List.mem_append.1 hd with hd | hd
  · obtain ⟨k, hframe, hspawned⟩ := h.travels.spawned hflat d hd
    obtain ⟨new, hnew, -⟩ := (c.goes hflat (h.travels.fits hflat)).spawned hflat
    refine ⟨k, hframe, fun a ha => (hspawned a ha).elim id ?_⟩
    rintro ⟨rfl, ha⟩
    refine h.ends.turns a ?_
    rw [hnew]
    exact List.mem_append_left new ha
  · obtain rfl := List.mem_singleton.1 hd
    exact ⟨n, h.travels.frame hflat, h.ends.turns⟩

end PatternRun

/-! ### Runs that are computed -/

/-- What a task answers in some frame, if it is over then. -/
def Machine.answer? (acts : Nat → List Outside) (dt : Float) (m : Machine) (start n : Nat) :
    Option (Except MachineError Unit) :=
  (follow acts dt m start n).bind fun poll =>
    match (poll.task.step poll.before).1 with
    | .done answer => some answer
    | .waiting _ => none

theorem Machine.follow_of_answer? {acts : Nat → List Outside} {dt : Float} {m : Machine} {start n : Nat}
    {answer : Except MachineError Unit} (h : answer? acts dt m start n = some answer) :
    ∃ poll, follow acts dt m start n = some poll ∧ (poll.task.step poll.before).1 = .done answer := by
  obtain ⟨poll, hpoll, hanswer⟩ := Option.bind_eq_some_iff.1 h
  refine ⟨poll, hpoll, ?_⟩
  cases hturn : (poll.task.step poll.before).1 <;> simp_all

/-- The only task of a run is in company. -/
theorem company_soleTree (node : Node Callable) : (soleTree node).Company (rootTask node .none) 0 :=
  ⟨[], [], rfl, rfl, by simp⟩

end Barrage
