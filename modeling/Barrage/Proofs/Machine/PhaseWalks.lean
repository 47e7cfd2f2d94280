import Barrage.Proofs.Machine.PhaseBooks

/-!
# Which phases are run

A pattern looks up its next phase when the last one is over, and it asks the controller for it, which others may have
steered at any time in between. So which phases are run is decided at the lookups only: by what was said to the
controller up to each of them, where a stop counts more than a jump, and a jump more than the order of the phases. This
is a walk over the phases that can be told without any run, once it is known in which frames the lookups fall. The walk
keeps its own account of what was said: whether anyone said stop, and where the last jump leads.

## Main definitions

* `walk`: the phases that are visited, by what is done from outside between the lookups
* `PatternRun.Moment.visits`, `PatternRun.Moment.lookup`: where a pattern looks up a phase, and which one it finds
* `PatternRun.Walks`: what the moments up to some moment have to do with the walk

## Main results

* `walk_of_idle`: the walk if nobody steers
* `PatternRun.Travels.walks`: the way of a pattern is such a walk
* `pattern_walks`: the phases that a pattern has run when it is over
-/

namespace Barrage

open Machine

/-! ### Walks -/

/-- An action that tells a pattern to stop. -/
def Outside.isStop : Outside → Bool
  | stop => true
  | _ => false

/-- The place to which an action tells a pattern to jump. -/
def Outside.jump? : Outside → Option Nat
  | force index => some index
  | _ => none

/-- The place to jump to after some actions: the last one that was told, or the one that was pending before. -/
def pendingAfter (pending : Option Nat) (actions : List Outside) : Option Nat :=
  (actions.filterMap Outside.jump?).getLast?.or pending

/-- The places that are visited from some place on, if so many phases there are and these actions are done before each
of the lookups. A stop may have been told before, and a jump may be pending, which is made once. It is not known which
places these are if there are too few lookups. -/
def walk (count : Nat) (stopped : Bool) (pending current : Option Nat) : List (List Outside) → Option (List Nat)
  | [] => none
  | actions :: later =>
    if stopped || actions.any Outside.isStop then some []
    else
      let index := (pendingAfter pending actions).getD (current.elim 0 (· + 1))
      if index < count then (walk count false none (some index) later).map (index :: ·) else some []

/-- What is done from outside after some frame and up to the turns of another one. -/
def doneSince (acts : Nat → List Outside) (earlier n : Nat) : List Outside :=
  (List.range' (earlier + 1) (n - earlier)).flatMap acts

/-- What is done from outside before each of some lookups, since the one before. -/
def doneBefore (acts : Nat → List Outside) : Nat → List Nat → List (List Outside)
  | _, [] => []
  | earlier, n :: later => doneSince acts earlier n :: doneBefore acts n later

variable {acts : Nat → List Outside} {count earlier n : Nat} {c : Controller} {current : Option Nat}
  {actions : List Outside} {later : List (List Outside)}

theorem doneSince_self (acts : Nat → List Outside) (n : Nat) : doneSince acts n n = [] := by
  rw [doneSince, Nat.sub_self]
  rfl

theorem doneSince_succ (h : earlier ≤ n) :
    doneSince acts earlier (n + 1) = doneSince acts earlier n ++ acts (n + 1) := by
  have hlast : earlier + 1 + (n - earlier) = n + 1 := by omega
  rw [doneSince, Nat.sub_add_comm h, List.range'_1_concat, List.flatMap_append, List.flatMap_singleton, hlast]
  rfl

/-- A controller is stopped if it was told so. -/
theorem stopped_steered (c : Controller) (actions : List Outside) :
    (actions.foldl Outside.steer c).stopped = (c.stopped || actions.any Outside.isStop) := by
  induction actions generalizing c with
  | nil => rw [List.foldl_nil, List.any_nil, Bool.or_false]
  | cons action rest ih =>
    have haction : (Outside.steer c action).stopped = (c.stopped || action.isStop) := by
      cases action <;> simp [Outside.steer, Outside.isStop]
    rw [List.foldl_cons, ih, haction, List.any_cons, Bool.or_assoc]

/-- A controller jumps to where it was told to last. -/
theorem forced_steered (c : Controller) (actions : List Outside) :
    (actions.foldl Outside.steer c).forced = pendingAfter c.forced actions := by
  induction actions generalizing c with
  | nil => rfl
  | cons action rest ih =>
    have haction : (Outside.steer c action).forced = action.jump?.or c.forced := by cases action <;> rfl
    rw [List.foldl_cons, ih, haction, pendingAfter, pendingAfter, List.filterMap_cons]
    cases action.jump? with
    | none => rfl
    | some index => rw [List.getLast?_cons, Option.some_or, Option.some_or, Option.or_some]

/-- The walk goes where the controller leads. -/
theorem walk_of_next {index : Nat} (h : ((actions.foldl Outside.steer c).next current).1 = some index)
    (hindex : index < count) :
    let next := ((actions.foldl Outside.steer c).next current).2
    walk count c.stopped c.forced current (actions :: later) =
      (walk count next.stopped next.forced (some index) later).map (index :: ·) := by
  intro next
  rw [walk, ← stopped_steered, ← forced_steered]
  cases hstopped : (actions.foldl Outside.steer c).stopped with
  | true =>
    rw [Controller.next_of_stopped hstopped] at h
    cases h
  | false =>
    have hnext : next = { actions.foldl Outside.steer c with forced := none } := by
      simp only [next, Controller.next_of_live hstopped]
    rw [Controller.next_of_live hstopped] at h
    obtain rfl := Option.some.inj h
    rw [if_neg Bool.false_ne_true, if_pos hindex, hnext, hstopped]

/-- The walk is over if the controller leads nowhere. -/
theorem walk_of_stop (h : ∀ index, ((actions.foldl Outside.steer c).next current).1 = some index → count ≤ index) :
    walk count c.stopped c.forced current (actions :: later) = some [] := by
  rw [walk, ← stopped_steered, ← forced_steered]
  cases hstopped : (actions.foldl Outside.steer c).stopped with
  | true => rfl
  | false =>
    have hindex := h _ (by rw [Controller.next_of_live hstopped])
    rw [if_neg Bool.false_ne_true, if_neg (Nat.not_lt.2 hindex)]

/-- What was told before the first lookup may as well be told to the controller. -/
theorem walk_told (c : Controller) (before : List Outside) (later : List (List Outside)) :
    let told := before.foldl Outside.steer c
    walk count told.stopped told.forced current later =
      walk count c.stopped c.forced current (later.modifyHead (before ++ ·)) := by
  intro told
  cases later with
  | nil => rfl
  | cons actions later =>
    rw [List.modifyHead_cons, walk, walk, ← stopped_steered, ← forced_steered, ← stopped_steered, ← forced_steered,
      List.foldl_append]

/-- An action that does not steer. -/
def Outside.Idle : Outside → Prop
  | force _ => False
  | stop => False
  | _ => True

theorem Outside.Idle.told {action : Outside} (h : action.Idle) : action.isStop = false ∧ action.jump? = none := by
  cases action <;> first | exact ⟨rfl, rfl⟩ | cases h

theorem idle_doneBefore (h : ∀ k, ∀ action ∈ acts k, action.Idle) (earlier : Nat) (frames : List Nat) :
    ∀ actions ∈ doneBefore acts earlier frames, ∀ action ∈ actions, action.Idle := by
  induction frames generalizing earlier with
  | nil => simp [doneBefore]
  | cons n frames ih =>
    refine List.forall_mem_cons.2 ⟨fun action haction => ?_, ih n⟩
    obtain ⟨k, -, hk⟩ := List.mem_flatMap.1 haction
    exact h k action hk

/-- The walk if nobody steers: all places that are left, in their order. -/
theorem walk_of_idle {visited : List Nat} (hidle : ∀ actions ∈ later, ∀ action ∈ actions, action.Idle)
    (hwalk : walk count false none current later = some visited) :
    visited = List.range' (current.elim 0 (· + 1)) (count - current.elim 0 (· + 1)) := by
  induction later generalizing current visited with
  | nil => cases hwalk
  | cons actions later ih =>
    have hidleHere := hidle actions List.mem_cons_self
    have hstop : actions.any Outside.isStop = false :=
      List.any_eq_false.2 fun action haction => by simp [(hidleHere action haction).told.1]
    have hjump : pendingAfter none actions = none := by
      rw [pendingAfter, List.filterMap_eq_nil_iff.2 fun action haction => (hidleHere action haction).told.2]
      rfl
    -- Without a jump the next place is the one after the current one.
    rw [walk, hstop, Bool.false_or, if_neg Bool.false_ne_true, hjump, Option.getD_none] at hwalk
    dsimp only at hwalk
    generalize current.elim 0 (· + 1) = index at hwalk ⊢
    split at hwalk
    · rename_i hindex
      obtain ⟨rest, hrest, rfl⟩ := Option.map_eq_some_iff.1 hwalk
      rw [ih (fun other hother => hidle other (List.mem_cons_of_mem _ hother)) hrest]
      obtain ⟨left, rfl⟩ := Nat.exists_eq_add_of_lt hindex
      have hleft : index + left + 1 - index = left + 1 := by omega
      have hleft' : index + left + 1 - (index + 1) = left := by omega
      rw [hleft, List.range'_succ, Option.elim_some, hleft']
    · rename_i hindex
      cases hwalk
      rw [Nat.sub_eq_zero_of_le (Nat.le_of_not_lt hindex), List.range'_zero]

namespace PatternRun

variable {run : PatternRun} {entry : run.Entry} {m p q : Machine} {point : run.Point}

/-! ### Walks of patterns -/

/-- A phase that is not to be run. -/
def skips (run : PatternRun) (index : Nat) : Bool := run.phases[index]?.any (·.props.skip)

namespace Point

/-- The place that a pattern has come to. -/
def place? : run.Point → Option Nat
  | .look current => current
  | .stay (.buffer place _) | .enter place => some place
  | .begin entry | .stay (.inside entry _) | .settle entry _ | .block entry | .stay (.ending entry _) =>
    some entry.place
  | .start | .ended _ _ => none

/-- The place of a phase that was looked up but has not ended. -/
def owed : run.Point → List Nat
  | .stay (.buffer place _) | .enter place => [place]
  | .begin entry | .stay (.inside entry _) | .settle entry _ => [entry.place]
  | _ => []

/-- A pattern is not over. -/
def Going : run.Point → Prop
  | .ended _ _ => False
  | _ => True

/-- The place that is visited by a leap, which is a lookup that finds a phase. -/
def visits : run.Point → run.Leap → List Nat
  | .look _, .on (.look (some index)) => [index]
  | .look _, .on (.stay (.buffer place _)) => [place]
  | _, _ => []

/-- The frame of a lookup, counted from that in which the pattern started. -/
def lookup (m p : Machine) : run.Point → List Nat
  | .look _ => [p.clock.frame - m.clock.frame]
  | _ => []

end Point

namespace Moment

/-- The place that is visited at a moment. -/
def visits (c : run.Moment) : List Nat := c.point.visits c.next

/-- The frame of a lookup at a moment. -/
def lookup (m : Machine) (c : run.Moment) : List Nat := c.point.lookup m c.before

end Moment

/-- What is known of the walk of a pattern that has come to some point: the rest of the walk if it goes on, and else
the whole of it. All places that were visited have ended or are owed, unless they are skipped. -/
structure Walks (acts : Nat → List Outside) (m : Machine) (n : Nat) (lookups visited : List Nat) (point : run.Point)
    (p : Machine) : Prop where
  heads : point.Going → ∃ c last, last ≤ n ∧
    p.shared.executor.controller = (doneSince acts last n).foldl Outside.steer c ∧
    ∀ later, walk run.phases.length m.shared.executor.controller.stopped m.shared.executor.controller.forced none
        (doneBefore acts 0 (lookups ++ later)) =
      (walk run.phases.length c.stopped c.forced point.place? (doneBefore acts last later)).map (visited ++ ·)
  whole : ∀ failed, point = .ended (.ok ()) failed →
    walk run.phases.length m.shared.executor.controller.stopped m.shared.executor.controller.forced none
      (doneBefore acts 0 lookups) = some visited
  ended : (∀ e failed, point ≠ .ended (.error e) failed) → ∃ ended : List Completion,
    p.shared.campaign.completions = m.shared.campaign.completions ++ ended ∧
    ended.map Completion.index ++ point.owed = visited.filter (fun index => !run.skips index)

variable {lookups visited : List Nat} {there : run.Point}

/-- A leap within the way of a phase. -/
theorem Walks.keep (h : Walks acts m n lookups visited point p) (hpoint : point.Going) (hthere : there.Going)
    (hplace : there.place? = point.place?)
    (hcontroller : q.shared.executor.controller = p.shared.executor.controller) {new : List Completion}
    (hwritten : q.shared.campaign.completions = p.shared.campaign.completions ++ new)
    (howed : new.map Completion.index ++ there.owed = point.owed) : Walks acts m n lookups visited there q where
  heads _ := by
    obtain ⟨c, last, hlast, hsteered, hwalk⟩ := h.heads hpoint
    exact ⟨c, last, hlast, hcontroller.trans hsteered, by rwa [hplace]⟩
  whole failed hover := by
    subst hover
    exact hthere.elim
  ended _ := by
    obtain ⟨ended, hended, hvisited⟩ := h.ended fun e failed hover => by
      subst hover
      exact hpoint
    refine ⟨ended ++ new, by rw [hwritten, hended, List.append_assoc], ?_⟩
    rw [← hvisited, ← howed, List.map_append, List.append_assoc]

/-- Nothing is said of a pattern that ends with an error. -/
theorem walks_of_error (e : MachineError) (failed : Option run.Entry) :
    Walks acts m n lookups visited (.ended (.error e) failed : run.Point) p :=
  ⟨fun h => h.elim, fun _ h => (by cases h), fun h => absurd rfl (h e failed)⟩

/-- A frame that passes. -/
theorem Walks.tick {stay : run.Stay} (h : Walks acts m n lookups visited (.stay stay) p)
    (hbetween : Between (acts (n + 1)) p q) : Walks acts m (n + 1) lookups visited (.stay stay) q where
  heads _ := by
    obtain ⟨c, last, hlast, hsteered, hwalk⟩ := h.heads trivial
    refine ⟨c, last, Nat.le_succ_of_le hlast, ?_, hwalk⟩
    rw [hbetween.steers.executor, hsteered, doneSince_succ hlast, List.foldl_append]
  whole _ h := by cases h
  ended _ := by
    obtain ⟨ended, hended, hvisited⟩ := h.ended fun _ _ h => by cases h
    exact ⟨ended, by rw [hbetween.steers.campaign, hended], hvisited⟩

/-- A lookup that finds no phase. -/
theorem Walks.stop (h : Walks acts m n lookups visited (.look current : run.Point) p)
    (hstop : ∀ index, (p.shared.executor.controller.next current).1 = some index → run.phases.length ≤ index)
    (controller : Controller) :
    Walks acts m n (lookups ++ [n]) visited (.ended (.ok ()) none : run.Point) (p.steered controller) where
  heads h := h.elim
  whole _ _ := by
    obtain ⟨c, last, hlast, hsteered, hwalk⟩ := h.heads trivial
    rw [hsteered] at hstop
    rw [hwalk, doneBefore, Point.place?, walk_of_stop hstop, Option.map_some, List.append_nil]
  ended _ := h.ended fun _ _ h => by cases h

/-- A lookup that finds a phase. -/
theorem Walks.find {index : Nat} (h : Walks acts m n lookups visited (.look current : run.Point) p)
    (hnext : (p.shared.executor.controller.next current).1 = some index) (hindex : index < run.phases.length)
    (hthere : there.Going) (hplace : there.place? = some index)
    (howed : there.owed = [index].filter fun index => !run.skips index) :
    Walks acts m n (lookups ++ [n]) (visited ++ [index]) there
      (p.steered (p.shared.executor.controller.next current).2) where
  heads _ := by
    obtain ⟨c, last, hlast, hsteered, hwalk⟩ := h.heads trivial
    -- From here on the walk is that of the controller after the lookup, to which nothing was said yet.
    refine ⟨_, n, Nat.le_refl n, by rw [doneSince_self]; rfl, fun later => ?_⟩
    rw [hsteered] at hnext ⊢
    rw [List.append_assoc, List.singleton_append, hwalk, doneBefore, Point.place?, walk_of_next hnext hindex, hplace,
      Option.map_map]
    congr 1
    funext rest
    rw [Function.comp, List.append_assoc, List.singleton_append]
  whole failed hover := by
    subst hover
    exact hthere.elim
  ended _ := by
    obtain ⟨ended, hended, hvisited⟩ := h.ended fun _ _ h => by cases h
    refine ⟨ended, hended, ?_⟩
    have howed' : (Point.look current : run.Point).owed = [] := rfl
    rw [List.filter_append, ← hvisited, howed, howed', List.append_nil]

theorem skips_place (place : Fin run.phases.length) : run.skips place = (run.phaseAt place).props.skip := by
  simp [skips, phaseAt]

/-- A leap that nothing is written down in. -/
theorem Walks.on (h : Walks acts m n lookups visited point p) (hpoint : point.Going) (hthere : there.Going)
    (hplace : there.place? = point.place?) (howed : there.owed = point.owed)
    (hcontroller : q.shared.executor.controller = p.shared.executor.controller)
    (hcampaign : q.shared.campaign.completions = p.shared.campaign.completions) :
    Walks acts m n lookups visited there q :=
  h.keep hpoint hthere hplace hcontroller (hcampaign.trans (List.append_nil _).symm) howed

theorem Walks.quiet (h : Walks acts m n lookups visited point p) (hquiet : Quiet p q) (hpoint : point.Going)
    (hthere : there.Going) (hplace : there.place? = point.place?) (howed : there.owed = point.owed) :
    Walks acts m n lookups visited there q :=
  h.on hpoint hthere hplace howed hquiet.spares.controller hquiet.spares.completions

/-- The end of a phase. -/
theorem Walks.settle {answer : Except MachineError Unit}
    (h : Walks acts m n lookups visited (.settle entry answer : run.Point) p) (cause : ClearCause) (services : Services) :
    let q : Machine := entry.phaseRun.afterConclude cause services p
    Walks acts m n lookups visited (ifLive q.sources (.block entry)) q := by
  intro q
  unfold ifLive
  split
  · exact walks_of_error _ _
  · exact h.keep trivial trivial rfl rfl rfl rfl

/-- A leap is a step of the walk if it is a lookup, and else it leaves the walk as it is. -/
theorem Goes.walks {next : run.Leap} (h : Walks acts m n lookups visited point p) (hgoes : Goes point p next q)
    (hthere : next.point? = some there) (hframe : p.clock.frame = m.clock.frame + n) :
    Walks acts m n (lookups ++ point.lookup m p) (visited ++ point.visits next) there q := by
  have hlookup : p.clock.frame - m.clock.frame = n := by omega
  -- All leaps but the lookups.
  have hsame : point.lookup m p = [] → point.visits next = [] → Walks acts m n lookups visited there q →
      Walks acts m n (lookups ++ point.lookup m p) (visited ++ point.visits next) there q := by
    intro hlookup hvisits h
    rwa [hlookup, hvisits, List.append_nil, List.append_nil]
  cases hgoes with
  | raise =>
    cases hthere
    have hshared : (run.raised p).shared.executor = p.shared.executor ∧
        (run.raised p).shared.campaign.completions = p.shared.campaign.completions := by
      rw [raised]
      cases run.props.boss <;> exact ⟨rfl, rfl⟩
    exact hsame rfl rfl (h.on trivial trivial rfl rfl (by rw [hshared.1]) hshared.2)
  | stop hstop =>
    cases hthere
    simp only [Point.lookup, hlookup, Point.visits, List.append_nil]
    exact h.stop hstop _
  | @skip current place _ hnext hskip =>
    cases hthere
    simp only [Point.lookup, hlookup, Point.visits]
    have hskips : run.skips place = true := (skips_place place).trans hskip
    exact h.find hnext place.isLt trivial rfl (by simp [Point.owed, hskips])
  | @visit current place _ hnext hskip =>
    cases hthere
    simp only [Point.lookup, hlookup, Point.visits]
    have hskips : run.skips place = false := (skips_place place).trans (Bool.not_eq_true _ ▸ hskip)
    exact h.find hnext place.isLt trivial rfl (by simp [Point.owed, hskips])
  | cancel hpoint =>
    cases hthere
    cases hpoint <;> exact hsame rfl rfl (walks_of_error _ _)
  | buffered | buffer | enter =>
    cases hthere
    exact hsame rfl rfl (h.on trivial trivial rfl rfl rfl rfl)
  | children hpoint hquiet | inside hpoint hquiet | ending hpoint hquiet =>
    cases hthere
    cases hpoint <;> exact hsame rfl rfl (h.quiet hquiet trivial trivial rfl rfl)
  | fail =>
    cases hthere
    exact hsame rfl rfl (walks_of_error _ _)
  | @settle _ _ cause _ _ _ services hq _ hon =>
    cases hthere
    subst hq hon
    exact hsame rfl rfl (h.settle cause services)
  | @block _ _ _ _ hpoint hquiet answer _ hon =>
    cases hthere
    subst hon
    cases answer with
    | ok => cases hpoint <;> exact hsame rfl rfl (h.quiet hquiet trivial trivial rfl rfl)
    | error e => cases hpoint <;> exact hsame rfl rfl (walks_of_error _ _)
  | lower => cases hthere

variable {dt : Float} {start : Nat} {passed : List run.Moment} {c : run.Moment}

/-- The way of a pattern is a walk. -/
theorem Travels.walks (hflat : run.Flat) (h : Travels run acts dt m start n passed c) :
    Walks acts m n (passed.flatMap (Moment.lookup m)) (passed.flatMap Moment.visits) c.point c.before := by
  induction h with
  | start _ hspares =>
    refine ⟨fun _ => ⟨m.shared.executor.controller, 0, Nat.le_refl 0, ?_, fun later => ?_⟩, fun _ h => (by cases h),
      fun _ => ⟨[], ?_, rfl⟩⟩
    · rw [doneSince_self]
      exact hspares.controller
    · simp [Point.place?]
    · rw [hspares.completions, List.append_nil]
  | @on n passed c point h hnext ih =>
    have hthere : c.next.point? = some point := by
      rw [hnext]
      rfl
    have hwalks := (c.goes hflat (h.fits hflat)).walks ih hthere (h.frame hflat)
    rwa [List.flatMap_append, List.flatMap_singleton, List.flatMap_append, List.flatMap_singleton]
  | @rest n passed c stay poll h hnext hends _ hbetween ih =>
    have hthere : c.next.point? = some (.stay stay) := by
      rw [hnext]
      rfl
    have hwalks := (c.goes hflat (h.fits hflat)).walks ih hthere (h.frame hflat)
    rw [List.flatMap_append, List.flatMap_singleton, List.flatMap_append, List.flatMap_singleton]
    exact hwalks.tick hbetween

/-! ### From lookup to lookup -/

/-- Where the lookups of a pattern come from. -/
theorem Goes.to_look {current : Option Nat} (h : Goes point p (.on (.look current)) q) :
    current = none ∧ point = .start ∨
      (∃ index, current = some index ∧ run.skips index = true ∧ point.visits (.on (.look current)) = [index]) ∨
      ∃ entry, current = some entry.place.val ∧ point.Ending entry := by
  cases h with
  | raise => exact .inl ⟨rfl, rfl⟩
  | @skip _ place _ _ hskip => exact .inr (.inl ⟨place, rfl, (skips_place place).trans hskip, rfl⟩)
  | settle _ _ hthere =>
    unfold ifLive at hthere
    split at hthere <;> cases hthere
  | @block _ entry _ _ hpoint _ answer _ hthere =>
    cases answer with
    | ok =>
      cases hthere
      exact .inr (.inr ⟨entry, rfl, hpoint⟩)
    | error => cases hthere

/-- Where the frames before a phase come from. -/
theorem Goes.to_buffer {place : Fin run.phases.length} {left : Nat} (h : Goes point p (.on (.stay (.buffer place left))) q) :
    left = p.shared.bufferFrames ∧ point.visits (.on (.stay (.buffer place left))) = [place.val] := by
  cases h with
  | visit => exact ⟨rfl, rfl⟩
  | settle _ _ hthere =>
    unfold ifLive at hthere
    split at hthere <;> cases hthere
  | @block _ _ _ _ _ _ answer _ hthere => cases answer <;> cases hthere

theorem Goes.rest_buffer {place : Fin run.phases.length} {left : Nat} (h : Goes point p (.rest (.buffer place left)) q) :
    point = .stay (.buffer place (left + 1)) := by
  cases h with
  | buffer => rfl

/-- A phase is entered when there are no more frames before it. -/
theorem Goes.to_enter {place : Fin run.phases.length} (h : Goes point p (.on (.enter place)) q) :
    point = .stay (.buffer place 0) := by
  cases h with
  | buffered => rfl
  | settle _ _ hthere =>
    unfold ifLive at hthere
    split at hthere <;> cases hthere
  | @block _ _ _ _ _ _ answer _ hthere => cases answer <;> cases hthere

/-- Where a lookup leads that finds a phase to be skipped. -/
theorem Goes.of_skip {next : run.Leap} {index : Nat} (h : Goes point p next q) (hvisits : point.visits next = [index])
    (hskips : run.skips index = true) :
    next = .on (.look (some index)) ∧ ∃ controller, q = p.steered controller := by
  cases h with
  | @skip _ place =>
    cases List.singleton_inj.1 hvisits
    exact ⟨rfl, _, rfl⟩
  | @visit _ place _ _ hskip =>
    cases List.singleton_inj.1 hvisits
    exact absurd ((skips_place place).symm.trans hskips) hskip
  | cancel hpoint | children hpoint | inside hpoint | block hpoint | ending hpoint => cases hpoint <;> cases hvisits
  | _ => cases hvisits

/-- The frames before a phase, since the lookup that found it. -/
def Buffered (m : Machine) (passed : List run.Moment) (c : run.Moment) (place : Fin run.phases.length) (left : Nat) :
    Prop :=
  ∃ front look waits, passed = front ++ look :: waits ∧ look.visits = [place.val] ∧
    (∀ w ∈ waits, ∃ left, w.point = .stay (.buffer place left)) ∧
    c.before.clock.frame + left = look.before.clock.frame + m.shared.bufferFrames

variable {place : Fin run.phases.length} {left : Nat}

theorem Buffered.snoc {d : run.Moment} (h : Buffered m passed c place left) {left' : Nat}
    (hpoint : c.point = .stay (.buffer place left))
    (hframe : d.before.clock.frame + left' = c.before.clock.frame + left) : Buffered m (passed ++ [c]) d place left' := by
  obtain ⟨front, look, waits, rfl, hvisits, hwaits, hframes⟩ := h
  refine ⟨front, look, waits ++ [c], by simp, hvisits, fun w hw => ?_, hframe.trans hframes⟩
  rcases List.mem_append.1 hw with hw | hw
  · exact hwaits w hw
  · obtain rfl := List.mem_singleton.1 hw
    exact ⟨left, hpoint⟩

/-- A pattern waits for as many frames as it has to before each phase. -/
theorem Travels.buffered (hflat : run.Flat) (h : Travels run acts dt m start n passed c) :
    (∀ place left, c.point = .stay (.buffer place left) → Buffered m passed c place left) ∧
    ∀ place, c.point = .enter place → Buffered m passed c place 0 := by
  induction h with
  | start => exact ⟨fun _ _ h => (by cases h), fun _ h => (by cases h)⟩
  | @on n passed c point h hnext ih =>
    have hgoes := c.goes hflat (h.fits hflat)
    have hframe : c.after.clock.frame = c.before.clock.frame := congrArg (·.frame) hgoes.keeps.1
    rw [hnext] at hgoes
    refine ⟨fun place left hpoint => ?_, fun place hpoint => ?_⟩
    · obtain rfl : point = _ := hpoint
      obtain ⟨rfl, hvisits⟩ := hgoes.to_buffer
      rw [← hnext] at hvisits
      refine ⟨passed, c, [], rfl, hvisits, by simp, ?_⟩
      rw [h.bufferFrames hflat, hframe]
    · obtain rfl : point = _ := hpoint
      have hbuffer := hgoes.to_enter
      exact (ih.1 place 0 hbuffer).snoc hbuffer hframe
  | @rest n passed c stay poll h hnext hends hfollow hbetween ih =>
    have hgoes := c.goes hflat (h.fits hflat)
    rw [hnext] at hgoes
    refine ⟨fun place left hpoint => ?_, fun place hpoint => by cases hpoint⟩
    obtain rfl : stay = .buffer place left := Point.stay.inj hpoint
    have hbuffer := hgoes.rest_buffer
    refine (ih.1 place (left + 1) hbuffer).snoc hbuffer ?_
    have hclock : poll.before.clock.frame = m.clock.frame + (n + 1) := by rw [follow_clock hfollow]
    have hframe := h.frame hflat
    dsimp only
    omega

/-- How a pattern gets from one lookup to the next one. -/
structure VisitsPhases (run : PatternRun) (m : Machine) (way : List run.Moment) : Prop where
  /-- A phase is looked up at the start, right after one that is skipped, or right after the block for the end of
  one. -/
  looked : ∀ earlier c later current, way = earlier ++ c :: later → c.point = .look current →
    ∃ front last, earlier = front ++ [last] ∧ c.before = last.after ∧ (current = none ∧ last.point = .start ∨
      (∃ index, current = some index ∧ run.skips index = true ∧ last.visits = [index]) ∨
      ∃ entry, current = some entry.place.val ∧ last.point.Ending entry)
  /-- After a phase that is skipped the next one is looked up at once, and nothing has been done but for the lookup. -/
  skipped : ∀ earlier c later index, way = earlier ++ c :: later → c.visits = [index] → run.skips index = true →
    ∃ next rest, later = next :: rest ∧ next.point = .look (some index) ∧
      ∃ controller, next.before = c.before.steered controller
  /-- A phase is entered so many frames after the lookup that found it as there are to be before each phase. -/
  buffered : ∀ earlier c later place, way = earlier ++ c :: later → c.point = .enter place →
    Buffered m earlier c place 0

theorem Arrives.visitsPhases (hflat : run.Flat) {poll : Machine.Poll} (h : Arrives run acts dt m start n poll passed c) :
    VisitsPhases run m (passed ++ [c]) where
  looked earlier d later current hway hpoint := by
    rcases h.travels.before hway with ⟨hstart, -⟩ | ⟨front, last, rfl, ⟨hon, hbefore⟩ | ⟨_, -, hstay⟩⟩
    · cases hpoint.symm.trans hstart
    · have hgoes := h.travels.goes_of_mem hflat (d := last) (by rw [hway]; simp)
      rw [hon, hpoint] at hgoes
      refine ⟨front, last, rfl, hbefore, ?_⟩
      rw [Moment.visits, hon, hpoint]
      exact hgoes.to_look
    · cases hpoint.symm.trans hstay
  skipped earlier d later index hway hvisits hskips := by
    obtain ⟨hnext, controller, hafter⟩ :=
      (h.travels.goes_of_mem hflat (d := d) (by rw [hway]; simp)).of_skip hvisits hskips
    obtain ⟨next, rest, rfl, hbefore, hpoint⟩ := h.goes_on hway hnext
    exact ⟨next, rest, rfl, hpoint, controller, hbefore.trans hafter⟩
  buffered earlier d later place hway hpoint := by
    obtain ⟨k, hd⟩ := h.travels.to_moment hway
    exact (hd.buffered hflat).2 place hpoint

end PatternRun

/-- What is done to a run before the first frame is told to its controller. -/
theorem controller_acted (before : List Outside) (m : Machine) :
    (m.acted before).shared.executor.controller = before.foldl Outside.steer m.shared.executor.controller := by
  rw [(steers_acted before m).1.executor]

open PatternRun in
/-- The phases that a pattern has run when it is over without an error, whatever others did meanwhile: what it wrote
down are those that the walk visits, without the skipped ones. The walk is told of what others did up to each lookup,
and a lookup comes at the start, after a skipped phase, or after the block for the end of a phase. What others did
before the pattern started counts for its first lookup. If nobody steers the pattern, it has run all phases that are
not skipped, in their order. -/
theorem pattern_walks {run : PatternRun} {acts : Nat → List Outside} {dt : Float} {m : Machine} {start n : Nat}
    {task : Activity} {poll : Machine.Poll} (hflat : run.Flat) (hcompany : m.Company task start)
    (htask : (Node.pattern run.props run.phases).IsTask run.token task)
    (hfollow : follow acts dt m start n = some poll) (hdone : (poll.task.step poll.before).1 = .done (.ok ())) :
    ∃ (passed : List run.Moment) (last : run.Moment) (lookups visited : List Nat) (ended : List Completion),
      Arrives run acts dt m start n poll passed last ∧
      VisitsPhases run m (passed ++ [last]) ∧
      passed.flatMap (Moment.lookup m) = lookups ∧
      passed.flatMap Moment.visits = visited ∧
      walk run.phases.length m.shared.executor.controller.stopped m.shared.executor.controller.forced none
        (doneBefore acts 0 lookups) = some visited ∧
      (∀ (fresh : Machine) (before : List Outside), fresh.shared.executor.controller = {} → m = fresh.acted before →
        walk run.phases.length false none none ((doneBefore acts 0 lookups).modifyHead (before ++ ·)) =
          some visited) ∧
      poll.after.shared.campaign.completions = m.shared.campaign.completions ++ ended ∧
      (ended.map Completion.index = visited.filter fun index => !run.skips index) ∧
      (m.shared.executor.controller = {} → (∀ k, ∀ action ∈ acts k, action.Idle) →
        ended.map Completion.index = (List.range run.phases.length).filter fun index => !run.skips index) := by
  obtain ⟨passed, ⟨point, p⟩, harrives⟩ := arrives hflat hcompany htask hfollow
  obtain ⟨failed, hpoint, hlowered⟩ := harrives.is_done hflat hdone
  obtain rfl : point = .ended (.ok ()) failed := hpoint
  have hwalks := harrives.travels.walks hflat
  obtain ⟨ended, hended, hvisited⟩ := hwalks.ended fun _ _ h => by cases h
  have hwalk := hwalks.whole failed rfl
  obtain ⟨outcome, hafter⟩ := harrives.after
  refine ⟨passed, _, _, _, ended, harrives, harrives.visitsPhases hflat, rfl, rfl, hwalk,
    fun fresh before hfresh hbefore => ?_, ?_, ?_, fun hfresh hidle => ?_⟩
  · -- What was done before the pattern started is in its controller already.
    have hcontroller : m.shared.executor.controller = before.foldl Outside.steer {} := by
      rw [hbefore, controller_acted, hfresh]
    rw [hcontroller, walk_told] at hwalk
    exact hwalk
  · rw [hafter, hlowered, ← hended, lowered]
    cases run.props.boss <;> rfl
  · exact (List.append_nil _).symm.trans hvisited
  · rw [hfresh] at hwalk
    rw [walk_of_idle (idle_doneBefore hidle 0 _) hwalk] at hvisited
    rw [List.range_eq_range']
    exact (List.append_nil _).symm.trans hvisited

/-- A pattern of three phases, of which the second one is skipped. -/
def skippingPattern : PatternRun :=
  ⟨{}, [pausingPhase 0.0 0.1, .mk { skip := true } [] none none, pausingPhase 0.0 0.1], .none⟩

theorem skippingPattern_flat : skippingPattern.Flat := by
  intro phase hphase
  simp only [skippingPattern, List.mem_cons, List.not_mem_nil, or_false] at hphase
  rcases hphase with rfl | rfl | rfl
  · exact pausingPhase_flat 0.0 0.1
  · exact ⟨by simp [Phase.children], by simp [Phase.atEnd], by simp [Phase.atCut]⟩
  · exact pausingPhase_flat 0.0 0.1

/-- The phases that a pattern has run if some actions are done before it starts, and some before its frames: they are
those of the walk that are not skipped. -/
def RunsPhases (run : PatternRun) (before : List Outside) (acts : Nat → List Outside) (phases : List Nat) : Prop :=
  let m := (soleTree (.pattern run.props run.phases)).acted before
  ∃ passed : List run.Moment,
    walk run.phases.length false none none
        ((doneBefore acts 0 (passed.flatMap (PatternRun.Moment.lookup m))).modifyHead (before ++ ·)) =
      some (passed.flatMap PatternRun.Moment.visits) ∧
    ((passed.flatMap PatternRun.Moment.visits).filter fun index => !run.skips index) = phases

/-- Some actions before the fourth frame of a run. -/
def fourth (actions : List Outside) (n : Nat) : List Outside := if n = 3 then actions else []

/-- Left alone, the pattern runs its first and its last phase. A jump that is told during the first one is made once, a
later jump counts instead of an earlier one, and a stop counts more than a jump. If it is stopped before it starts, it
runs nothing. -/
theorem pattern_walks_steered :
    RunsPhases skippingPattern [] (fun _ => []) [0, 2] ∧
    RunsPhases skippingPattern [] (fourth [.force 0]) [0, 0, 2] ∧
    RunsPhases skippingPattern [] (fourth [.force 0, .force 7]) [0] ∧
    RunsPhases skippingPattern [] (fourth [.stop]) [0] ∧
    RunsPhases skippingPattern [] (fourth [.stop, .force 0]) [0] ∧
    RunsPhases skippingPattern [.force 2] (fun _ => []) [2] ∧
    RunsPhases skippingPattern [.force 2, .stop] (fun _ => []) [] := by
  have hruns : ∀ before acts n phases,
      answer? acts 0.1 ((soleTree (.pattern skippingPattern.props skippingPattern.phases)).acted before) 0 n =
        some (.ok ()) →
      (follow acts 0.1 ((soleTree (.pattern skippingPattern.props skippingPattern.phases)).acted before) 0 n).map
        (·.after.shared.campaign.completions.map Completion.index) = some phases →
      RunsPhases skippingPattern before acts phases := by
    intro before acts n phases hanswer hwritten
    obtain ⟨poll, hpoll, hdone⟩ := follow_of_answer? hanswer
    obtain ⟨passed, -, -, -, ended, -, -, rfl, rfl, -, hwalk, hended, hvisited, -⟩ :=
      pattern_walks skippingPattern_flat ((company_soleTree _).acted before) (.inr rfl) hpoll hdone
    rw [hpoll, Option.map_some, hended, (steers_acted before _).1.campaign] at hwritten
    exact ⟨passed, hwalk _ before rfl rfl, hvisited.symm.trans (Option.some.inj hwritten)⟩
  refine ⟨hruns _ _ 6 _ ?_ ?_, hruns _ _ 9 _ ?_ ?_, hruns _ _ 3 _ ?_ ?_, hruns _ _ 3 _ ?_ ?_, hruns _ _ 3 _ ?_ ?_,
    hruns _ _ 3 _ ?_ ?_, hruns _ _ 0 _ ?_ ?_⟩ <;> decide +kernel

end Barrage
