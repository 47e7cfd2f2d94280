import Barrage.Proofs.Machine.Bystanders

/-!
# A task in company

One task is followed through a run in which all others are bystanders. In every frame the bystanders take their
turns before and after it, and what they do leaves alone everything that it cares for. Between two frames the
events are taken out and others act on the run; of all that they can do, this task only notices how the controller
is steered and whether phases may leave anything behind.

## Main definitions

* `Outside.steer`: what an action from outside does to the controller
* `Machine.Company`: a run just before a frame in which all tasks but one are bystanders
* `Machine.Between`: what happens between the turns of a task in two frames

## Main results

* `Machine.Company.frame`: a frame of a task in company
* `Machine.TakesTurn.next`: from its turn in a frame to that in the next one
-/

namespace Barrage

/-! ### Actions from outside -/

/-- What an action from outside does to the controller. -/
def Outside.steer (c : Controller) : Outside → Controller
  | force index => { c with forced := some index }
  | stop => { c with stopped := true }
  | _ => c

namespace Machine

/-- A part of a run in which the controller is steered by some actions, and else nothing is done to the executor but
for its events and whether phases may leave anything behind. -/
structure Steers (actions : List Outside) (p q : Machine) : Prop where
  executor : q.shared.executor = { p.shared.executor with
    controller := actions.foldl Outside.steer p.shared.executor.controller
    allowFinish := q.shared.executor.allowFinish
    events := q.shared.executor.events }
  campaign : q.shared.campaign = p.shared.campaign
  bufferFrames : q.shared.bufferFrames = p.shared.bufferFrames

variable {actions more : List Outside} {m p q r : Machine} {dt : Float}

theorem Steers.trans (hpq : p.Steers actions q) (hqr : q.Steers more r) : p.Steers (actions ++ more) r where
  executor := by rw [hqr.executor, hpq.executor, List.foldl_append]
  campaign := hqr.campaign.trans hpq.campaign
  bufferFrames := hqr.bufferFrames.trans hpq.bufferFrames

theorem Spares.steers {J : CancelToken} (h : p.Spares J q) : p.Steers [] q :=
  ⟨by rw [h.executor, List.foldl_nil], h.campaign, h.bufferFrames⟩

theorem steers_closed (dt : Float) (m : Machine) : m.Steers [] (m.closed dt) := ⟨rfl, rfl, rfl⟩

/-- A blow leaves alone whatever does not depend on the running phase. -/
theorem sparing_damage (amount : Float) :
    Sparing .none (fun _ => True) (World.damage amount : World.M Activity Float) := by
  have hhp : Sparing .none (fun _ => True) (World.hp : World.M Activity Float) := sparing_look fun _ => rfl
  refine hhp.andThen fun before => ?_
  refine Sparing.andThen (sparing_update (fun _ => rfl) (fun _ => rfl) (fun _ => rfl) fun _ => rfl) fun _ => ?_
  refine hhp.andThen fun after => ?_
  split
  · exact (sparing_cancelPhase rfl).andThen fun _ => sparing_pure trivial
  · exact sparing_pure trivial

/-- An action from outside tells of no phase. -/
theorem steers_act (action : Outside) (m : Machine) :
    let acted : Machine := (action.act.run m).2
    m.Steers [action] acted ∧ acted.phaseEvents = m.phaseEvents := by
  cases action with
  | damage amount =>
    obtain ⟨hspares, -⟩ := sparing_damage amount m
    exact ⟨⟨hspares.steers.executor, hspares.campaign, hspares.bufferFrames⟩, hspares.phaseEvents⟩
  | shift =>
    obtain ⟨hspares, -⟩ := sparing_shiftPhase (J := .none) rfl m
    exact ⟨⟨hspares.steers.executor, hspares.campaign, hspares.bufferFrames⟩, hspares.phaseEvents⟩
  | _ => exact ⟨⟨rfl, rfl, rfl⟩, rfl⟩

theorem steers_acted (actions : List Outside) (m : Machine) :
    m.Steers actions (m.acted actions) ∧ (m.acted actions).phaseEvents = m.phaseEvents := by
  induction actions generalizing m with
  | nil => exact ⟨⟨rfl, rfl, rfl⟩, rfl⟩
  | cons action rest ih =>
    obtain ⟨hsteers, hevents⟩ := steers_act action m
    obtain ⟨hsteers', hevents'⟩ := ih (action.act.run m).2
    rw [acted_cons]
    exact ⟨hsteers.trans hsteers', hevents'.trans hevents⟩

/-! ### A frame in company -/

/-- A run just before a frame in which a task waits for its turn at some place, and all others are bystanders. -/
def Company (task : Activity) (here : Nat) (m : Machine) : Prop :=
  ∃ before after, m.tasks ++ m.spawned = before ++ task :: after ∧ before.length = here ∧
    ∀ a ∈ before ++ after, a.Apart .none

/-- All that a task spawns are bystanders. -/
def SpawnsApart (task : Activity) : Prop :=
  ∀ p : Machine, ∃ new, (task.step p).2.spawned = p.spawned ++ new ∧ ∀ a ∈ new, a.Apart .none

variable {task : Activity} {here : Nat} {done : List Poll} {queue : List Activity}

theorem Company.acted (h : m.Company task here) (actions : List Outside) : (m.acted actions).Company task here := by
  obtain ⟨-, htasks, hspawned, -⟩ := acted_keeps actions m
  rwa [Company, htasks, hspawned]

/-- A moment of a frame before the turn of a task in company. -/
def Awaits (task : Activity) (here : Nat) (m : Machine) (done : List Poll) (queue : List Activity) (p : Machine) :
    Prop :=
  ∃ before after, queue = before ++ task :: after ∧ done.length + before.length = here ∧
    (∀ a ∈ before ++ after, a.Apart .none) ∧ (∀ a ∈ done.filterMap Poll.kept, a.Apart .none) ∧ m.Spares .none p

/-- A moment of a frame after the turn of a task in company. -/
def Passed (task : Activity) (here : Nat) (m : Machine) (done : List Poll) (queue : List Activity) (p : Machine) :
    Prop :=
  ∃ (earlier later : List Poll) (q : Machine), done = earlier ++ ⟨task, q⟩ :: later ∧ earlier.length = here ∧
    m.Spares .none q ∧ (∀ a ∈ (earlier ++ later).filterMap Poll.kept, a.Apart .none) ∧
    (task.step q).2.Spares .none p ∧ (∀ a ∈ queue, a.Apart .none) ∧
    ∀ a ∈ (task.step q).2.spawned, a ∈ later.map Poll.task ∨ a ∈ queue

/-- The turn of a bystander before that of the task, or of the task itself. -/
theorem Awaits.turn (hspawns : SpawnsApart task) {a : Activity} {rest : List Activity}
    (h : Awaits task here m done (a :: (rest ++ p.spawned)) p) :
    Awaits task here m (done ++ [⟨a, p⟩]) (rest ++ (a.step p).2.spawned) (a.step p).2 ∨
      Passed task here m (done ++ [⟨a, p⟩]) (rest ++ (a.step p).2.spawned) (a.step p).2 := by
  obtain ⟨before, after, hqueue, hhere, hapart, hkept, hspares⟩ := h
  cases before with
  | nil =>
    -- No bystander is left before the task, so this is its own turn.
    obtain ⟨rfl, hrest⟩ := List.cons.inj hqueue
    obtain ⟨new, hnew, hnewApart⟩ := hspawns p
    refine .inr ⟨done, [], p, rfl, by simpa using hhere, hspares, by simpa using hkept, .refl _ _, fun a ha => ?_,
      fun a ha => .inr (List.mem_append_right _ ha)⟩
    rw [hnew, ← List.append_assoc, hrest] at ha
    exact (List.mem_append.1 ha).elim (fun ha => hapart a ha) (hnewApart a)
  | cons first before =>
    obtain ⟨rfl, hrest⟩ := List.cons.inj hqueue
    obtain ⟨hspares', ⟨new, hnew, hnewApart⟩, hleft⟩ := (hapart a (by simp)).step p
    refine .inl ⟨before, after ++ new, ?_, ?_, fun b hb => ?_, fun b hb => ?_, hspares.trans hspares'⟩
    · rw [hnew, ← List.append_assoc, hrest]
      exact List.append_assoc before (task :: after) new
    · rw [List.length_append, List.length_singleton, ← hhere, List.length_cons]
      omega
    · rw [← List.append_assoc] at hb
      exact (List.mem_append.1 hb).elim (fun hb => hapart b (List.mem_cons_of_mem _ hb)) (hnewApart b)
    · rw [List.filterMap_append, List.mem_append] at hb
      refine hb.elim (hkept b) fun hb => ?_
      obtain ⟨poll, hpoll, hb⟩ := List.mem_filterMap.1 hb
      obtain rfl := List.mem_singleton.1 hpoll
      exact hleft b ((Poll.kept_eq _).symm.trans hb)

/-- The turn of a bystander after that of the task. -/
theorem Passed.turn {a : Activity} {rest : List Activity} (h : Passed task here m done (a :: (rest ++ p.spawned)) p) :
    Passed task here m (done ++ [⟨a, p⟩]) (rest ++ (a.step p).2.spawned) (a.step p).2 := by
  obtain ⟨earlier, later, q, rfl, hhere, hbefore, hkept, hspares, hapart, hspawned⟩ := h
  obtain ⟨hspares', ⟨new, hnew, hnewApart⟩, hleft⟩ := (hapart a List.mem_cons_self).step p
  refine ⟨earlier, later ++ [⟨a, p⟩], q, by simp, hhere, hbefore, fun b hb => ?_, hspares.trans hspares',
    fun b hb => ?_, fun b hb => ?_⟩
  · rw [← List.append_assoc, List.filterMap_append, List.mem_append] at hb
    refine hb.elim (hkept b) fun hb => ?_
    obtain ⟨poll, hpoll, hb⟩ := List.mem_filterMap.1 hb
    obtain rfl := List.mem_singleton.1 hpoll
    exact hleft b ((Poll.kept_eq _).symm.trans hb)
  · rw [hnew, ← List.append_assoc] at hb
    exact (List.mem_append.1 hb).elim (fun hb => hapart b (List.mem_cons_of_mem _ hb)) (hnewApart b)
  · rcases hspawned b hb with hlater | hqueue
    · exact .inl (by rw [List.map_append]; exact List.mem_append_left _ hlater)
    · rcases List.mem_cons.1 hqueue with rfl | hqueue
      · exact .inl (by simp)
      · rw [hnew, ← List.append_assoc]
        exact .inr (List.mem_append_left _ hqueue)

/-- A frame of a task in company: the moment of its turn, and the run after the frame. What the task spawns takes its
first turn later in the same frame. -/
theorem Company.frame (h : m.Company task here) (hspawns : SpawnsApart task) :
    ∃ p : Machine, m.polls[here]? = some ⟨task, p⟩ ∧ m.Spares .none p ∧
      (task.step p).2.Spares .none { m.tick with clock := (task.step p).2.clock } ∧
      (∀ a ∈ (task.step p).2.spawned, ∃ place poll, here < place ∧ m.polls[place]? = some poll ∧ poll.task = a) ∧
      ∀ rest, (task.step p).1.left = some rest →
        m.tick.Company rest ((m.polls.take here).filterMap Poll.kept).length := by
  obtain ⟨before, after, htasks, hhere, hapart⟩ := h
  have hstart : Awaits task here m [] (m.tasks ++ m.spawned) m :=
    ⟨before, after, htasks, by simpa using hhere, hapart, by simp, .refl _ _⟩
  -- Each turn of the frame is before that of the task, its own, or after it.
  obtain ⟨last, hlast, hspawned, htick⟩ := Scheduler.tick_rule
    (I := fun done queue (p : Machine) => Awaits task here m done queue p ∨ Passed task here m done queue p)
    Activity.descending
    (fun done a rest p h => by
      rw [Activity.run_taskTurn]
      exact h.elim (fun h => h.turn hspawns) fun h => .inr h.turn)
    (fun done p h => h.imp
      (fun ⟨before, after, hqueue, hhere, hapart, hkept, hspares⟩ =>
        ⟨before, after, hqueue, hhere, hapart, hkept, { hspares with }⟩)
      fun ⟨earlier, later, q, hdone, hhere, hbefore, hkept, hspares, hrest⟩ =>
        ⟨earlier, later, q, hdone, hhere, hbefore, hkept, { hspares with }, hrest⟩)
    (.inl hstart)
  rcases hlast with ⟨before, after, hnil, -⟩ | ⟨earlier, later, p, hpolls, rfl, hbefore, hkept, hspares, -, hpolled⟩
  · simp at hnil
  have hplace : m.polls[earlier.length]? = some ⟨task, p⟩ := by
    rw [polls, hpolls, List.getElem?_append_right (Nat.le_refl _), Nat.sub_self]
    rfl
  refine ⟨p, hplace, hbefore, ?_, fun a ha => ?_, fun rest hrest => ?_⟩
  · rw [tick, htick]
    exact { hspares with clock := rfl }
  · obtain ⟨poll, hpoll, htask⟩ := List.mem_map.1 ((hpolled a ha).resolve_right List.not_mem_nil)
    obtain ⟨i, hi⟩ := List.getElem?_of_mem hpoll
    refine ⟨earlier.length + (i + 1), poll, by omega, ?_, htask⟩
    rw [polls, hpolls, List.getElem?_append_right (Nat.le_add_right _ _), Nat.add_sub_cancel_left]
    exact hi
  · have hpollKept : Poll.kept ⟨task, p⟩ = some rest := (Poll.kept_eq _).trans hrest
    have htake : m.polls.take earlier.length = earlier := by rw [polls, hpolls, List.take_left]
    refine ⟨earlier.filterMap Poll.kept, later.filterMap Poll.kept, ?_, by rw [htake], ?_⟩
    · rw [tick, htick, hspawned, List.append_nil, hpolls, List.filterMap_append, List.filterMap_cons_some hpollKept]
    · rwa [← List.filterMap_append]

/-! ### From frame to frame -/

/-- What happens between the turns of a task in a frame and in the next one: what was told of phases is taken out,
time passes, and others act on the run. -/
structure Between (actions : List Outside) (q next : Machine) : Prop where
  clock : next.clock = q.clock.tick
  steers : q.Steers actions next
  phaseEvents : next.phaseEvents = []

section Runs

variable (acts : Nat → List Outside) (dt : Float) (m : Machine) (start n : Nat)

/-- A task takes its turn in some frame, with bystanders around it. -/
structure TakesTurn (poll : Poll) : Prop where
  follow : follow acts dt m start n = some poll
  company : ∃ here, place acts dt m start n = some here ∧ (states acts dt m n).Company poll.task here
  spares : (states acts dt m n).Spares .none poll.before

/-- In some frame a task takes its turn after the one that is followed. -/
def TurnAfter (a : Activity) : Prop :=
  ∃ here later poll, place acts dt m start n = some here ∧ here < later ∧
    (states acts dt m n).polls[later]? = some poll ∧ poll.task = a

/-- What follows a turn in its frame: nothing more is told of phases, and what was spawned takes its turn. -/
structure EndsFrame (q : Machine) : Prop where
  phaseEvents : (states acts dt m n).tick.phaseEvents = q.phaseEvents
  turns : ∀ a ∈ q.spawned, TurnAfter acts dt m start n a

end Runs

variable {acts : Nat → List Outside} {start n : Nat} {poll : Poll}

/-- A task that is in company just before a frame takes its turn in it. -/
theorem Company.takesTurn (h : (states acts dt m n).Company task here) (hspawns : SpawnsApart task)
    (hplace : place acts dt m start n = some here) : ∃ p : Machine, TakesTurn acts dt m start n ⟨task, p⟩ := by
  obtain ⟨p, hpoll, hspares, -⟩ := h.frame hspawns
  refine ⟨p, ?_, ⟨here, hplace, h⟩, hspares⟩
  rw [Machine.follow, hplace]
  exact hpoll

/-- What the bystanders and others do after the turn of a task. If it is not finished, it takes its turn in the next
frame. -/
theorem TakesTurn.next (h : TakesTurn acts dt m start n poll) (hspawns : SpawnsApart poll.task) :
    EndsFrame acts dt m start n poll.after ∧ ∀ rest, poll.kept = some rest → SpawnsApart rest →
      ∃ next, TakesTurn acts dt m start (n + 1) ⟨rest, next⟩ ∧ Between (acts (n + 1)) poll.after next := by
  obtain ⟨task, p⟩ := poll
  obtain ⟨hfollow, ⟨here, hplace, hcompany⟩, -⟩ := h
  obtain ⟨p', hpoll, -, hafter, hspawned, hnext⟩ := hcompany.frame hspawns
  have hpoll' : (states acts dt m n).polls[here]? = some ⟨task, p⟩ := by
    rw [Machine.follow, hplace] at hfollow
    exact hfollow
  -- The turn that is followed is the one in which the company leaves the task alone.
  obtain rfl : p = p' := congrArg Poll.before (Option.some.inj (hpoll'.symm.trans hpoll))
  rw [Poll.after_eq, Poll.kept_eq]
  refine ⟨⟨hafter.phaseEvents, fun a ha => ?_⟩, fun rest hrest hspawnsRest => ?_⟩
  · obtain ⟨later, other, hlt, hother, htask⟩ := hspawned a ha
    exact ⟨here, later, other, hplace, hlt, hother, htask⟩
  · let frame := states acts dt m n
    obtain ⟨hclock, htasks, hspawned', -⟩ := acted_keeps (acts (n + 1)) (frame.tick.closed dt)
    obtain ⟨hsteers, hevents⟩ := steers_acted (acts (n + 1)) (frame.tick.closed dt)
    have hcompany' : (states acts dt m (n + 1)).Company rest ((frame.polls.take here).filterMap Poll.kept).length := by
      obtain ⟨before, after, hlist, hbefore⟩ := hnext rest hrest
      refine ⟨before, after, ?_, hbefore⟩
      rw [states, htasks, hspawned']
      exact hlist
    have hkept : (Poll.kept ⟨task, p⟩).isSome := by
      rw [Poll.kept_eq, hrest]
      rfl
    obtain ⟨q, hturn⟩ := hcompany'.takesTurn hspawnsRest (place_succ hplace hpoll hkept)
    refine ⟨q, hturn, ?_, ?_, ?_⟩
    · have hstep := (task.step_advances p).clock
      have hframe := clock_of_mem_polls (List.mem_of_getElem? hpoll)
      rw [hturn.spares.clock, states, hclock, hstep, hframe]
      exact tick_clock frame
    · have htick : (task.step p).2.Steers [] frame.tick :=
        ⟨hafter.steers.executor, hafter.campaign, hafter.bufferFrames⟩
      have hnext := ((htick.trans (steers_closed dt frame.tick)).trans hsteers).trans hturn.spares.steers
      rwa [List.nil_append, List.nil_append, List.append_nil] at hnext
    · rw [hturn.spares.phaseEvents, states, hevents]
      rfl

end Machine

end Barrage
