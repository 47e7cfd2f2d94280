import Barrage.Proofs.Machine.Rounds
import Barrage.Proofs.Machine.Turns
import Mathlib.Logic.Relation

/-!
# Frames of a run

A run goes from frame to frame: others act on it, all tasks take their turns, and what happened is taken
out. One task can be followed through it: a task that is not finished keeps its place among those that are
left, and in the next frame it takes its turn at that place.

## Main definitions

* `Machine.states`: a run just before its frames
* `Machine.follow`: the turns of one task, frame by frame
* `Machine.Later`: a later moment of a run, whatever happens meanwhile
* `Machine.history`: all turns of some frames, in order

## Main results

* `Machine.follow_succ`: a task that is not finished takes its next turn in the next frame
* `Machine.history_pairwise`: turns that come later in a run find a later moment
-/

namespace Barrage

/-! ### Computations in a run -/

section Steps

variable {α : Type} {f : World → World} {g : Unit → World.M Activity α} {p : Machine}

theorem run_update : ((Scheduler.update f : World.M Activity Unit) >>= g).run p =
    (g ()).run { p with shared := f p.shared } := rfl

/-- A change of the world that is left out under some condition. -/
theorem run_update_when {c : Prop} [Decidable c] :
    (if c then (Scheduler.update f : World.M Activity Unit) >>= g else g ()).run p =
      (g ()).run { p with shared := if c then f p.shared else p.shared } := by
  split <;> rfl

theorem run_get {g : Machine → World.M Activity α} :
    ((get : World.M Activity Machine) >>= g).run p = (g p).run p := rfl

theorem run_makeSource {g : Nat → World.M Activity α} :
    ((Scheduler.makeSource : World.M Activity Nat) >>= g).run p =
      (g p.sources.states.length).run { p with sources := p.sources.make.2 } := rfl

theorem run_cancel {source : Nat} :
    ((Scheduler.cancel source : World.M Activity Unit) >>= g).run p =
      (g ()).run { p with sources := p.sources.cancel source } := rfl

/-- A computation of which the result and the run after it are known. -/
theorem run_then {β : Type} {y : World.M Activity β} {c : β} {g : β → World.M Activity α} {q : Machine}
    (h : y.run p = (c, q)) : (y >>= g).run p = (g c).run q := by
  change (g (y.run p).1).run (y.run p).2 = _
  rw [h]

/-- The first two of three parts of a computation as one. -/
theorem run_bind_assoc {β γ : Type} {y : World.M Activity β} {g : β → World.M Activity γ}
    {h : γ → World.M Activity α} :
    (y >>= fun b => g b >>= h).run p = (h ((y >>= g).run p).1).run ((y >>= g).run p).2 := rfl

/-- A computation that only looks at the run. -/
theorem run_look {β : Type} {y : World.M Activity β} {c : β} {g : β → World.M Activity α} {q : Machine}
    (h : y.run q = (c, q)) : (y >>= g).run q = (g c).run q := run_then h

/-- What is behind a token is done as long as that is live. -/
theorem run_unlessCancelled {T : CancelToken} {y : Step (World.M Activity)} :
    (Step.unlessCancelled T y).run p = if T.isCancelled p.sources then (.cancelled, p) else y.run p := by
  change (if T.isCancelled p.sources then pure .cancelled else y : World.M Activity _).run p = _
  split <;> rfl

/-- A frame of a wait for some frames. -/
theorem run_frames (left : Nat) (token : CancelToken) (p : Machine) :
    ((Wait.frames left token).step : Step (World.M Activity)).run p =
      if token.isCancelled p.sources then (.cancelled, p)
      else match left with
        | 0 => (.finished, p)
        | left + 1 => (.waiting (.wait (.frames left token)), p) := by
  rw [Wait.step_eq, run_unlessCancelled]
  cases left <;> rfl

end Steps

/-! ### Turns of tasks -/

/-- Every activity is behind the token that nothing cancels. -/
theorem Activity.under_none (a : Activity) : a.Under .none := by
  cases a with
  | start _ token => exact .start token.includes_none
  | wait pause => exact .wait pause.token.includes_none
  | andThen first next =>
    refine .andThen (Activity.under_none first) ?_
    cases next <;> first | exact CancelToken.includes_none _ | trivial
  | join parts => exact .join fun a _ => Activity.under_none a
  | stuck => exact .stuck

namespace Machine

/-- A turn of a task in a run. -/
abbrev Poll := Barrage.Poll World Activity

/-- The turns of a frame. -/
abbrev polls (m : Machine) : List Poll := Scheduler.polls Activity.taskTurn Activity.rank m

/-- What is left of a task. -/
abbrev Poll.kept (poll : Poll) : Option Activity := Barrage.Poll.kept Activity.taskTurn poll

/-- The run after a turn. -/
abbrev Poll.after (poll : Poll) : Machine := Barrage.Poll.after Activity.taskTurn poll

end Machine

/-- What is left of an activity after a turn. -/
def Turn.left : Turn Activity → Option Activity
  | .done _ => none
  | .waiting rest => some rest

/-- The turn of an activity in a run: what comes of it, and the run after it. -/
abbrev Activity.step (a : Activity) (p : Machine) : Turn Activity × Machine :=
  (a.turn : World.M Activity (Turn Activity)).run p

theorem Activity.run_taskTurn (a : Activity) (p : Machine) :
    a.taskTurn.run p = ((a.step p).1.left, (a.step p).2) := by
  change (match (a.step p).1 with
    | .done _ => pure none
    | .waiting rest => pure (some rest) : World.M Activity (Option Activity)).run (a.step p).2 = _
  cases (a.step p).1 <;> rfl

/-- A task that is an activity, or that keeps the answer of one. -/
def Activity.Carries (task a : Activity) : Prop := task = a ∨ task = .andThen a .report

/-- A task ends with the activity that it carries, and does nothing of its own but to keep what came of it. -/
theorem Activity.Carries.step {task a : Activity} (h : task.Carries a) (p : Machine) :
    (∃ outcome, (task.step p).2 = { (a.step p).2 with shared := { (a.step p).2.shared with outcome } }) ∧
    (∀ answer, (a.step p).1 = .done answer → (task.step p).1 = .done answer) ∧
    ∀ left, (a.step p).1 = .waiting left → ∃ rest, (task.step p).1 = .waiting rest ∧ rest.Carries left := by
  rcases h with rfl | rfl
  · exact ⟨⟨_, rfl⟩, fun _ h => h, fun left h => ⟨left, h, .inl rfl⟩⟩
  · have hreport : (Activity.andThen a .report).step p =
        (match (a.step p).1 with
        | .done answer => (.done answer, ((World.keepOutcome answer).run (a.step p).2).2)
        | .waiting rest => (.waiting (.andThen rest .report), (a.step p).2)) := by
      change (((a.step p).1).followedBy .report (Continuation.apply .report) : Step (World.M Activity)).run
        (a.step p).2 = _
      cases (a.step p).1 <;> rfl
    rw [hreport]
    cases (a.step p).1 with
    | done answer => exact ⟨⟨_, rfl⟩, fun _ h => by rw [Turn.done.inj h], by simp⟩
    | waiting rest =>
      refine ⟨⟨_, rfl⟩, by simp, fun left h => ⟨_, rfl, ?_⟩⟩
      rw [Turn.waiting.inj h]
      exact .inr rfl

/-- Whatever an activity is, its turn only adds to the run, and what it spawns is smaller. -/
theorem Activity.step_advances (a : Activity) (p : Machine) :
    p.Advances (fun b => b.rank < a.rank) (a.step p).2 := by
  have h := (Activity.shows_turn a ⟨a.under_none, Nat.le_refl _⟩).advances (p := p) trivial
  exact h.1.mono fun b hb => hb.2

theorem Activity.descending : Scheduler.Descending Activity.taskTurn Activity.rank := by
  intro a p
  rw [Activity.run_taskTurn]
  exact (a.step_advances p).spawned

namespace Machine

@[simp] theorem Poll.kept_eq (poll : Poll) : poll.kept = (poll.task.step poll.before).1.left :=
  congrArg Prod.fst (Activity.run_taskTurn poll.task poll.before)

@[simp] theorem Poll.after_eq (poll : Poll) : poll.after = (poll.task.step poll.before).2 :=
  congrArg Prod.snd (Activity.run_taskTurn poll.task poll.before)

/-! ### Between frames -/

/-- A run after others have acted on it. -/
def acted (actions : List Outside) (m : Machine) : Machine := ((actions.mapM Outside.act).run m).2

/-- A run after what happened in a frame was taken out; time has passed for the timers. -/
def closed (dt : Float) (m : Machine) : Machine :=
  { m with
    shared :=
      { m.shared with
        hosts := m.shared.hosts.advance dt
        executor := { m.shared.executor with events := {} }
        services := { m.shared.services with calls := [] } } }

theorem acted_cons (action : Outside) (rest : List Outside) (m : Machine) :
    m.acted (action :: rest) = acted rest (action.act.run m).2 := by
  rw [acted, List.mapM_cons]
  rfl

/-- An action from outside only adds to a run, and spawns nothing. -/
theorem act_advances (action : Outside) (m : Machine) : m.Advances (fun _ => False) (action.act.run m).2 := by
  have h : Ensures (fun _ => False) (fun _ => True) (fun _ => True) action.act := by
    cases action with
    | damage amount =>
      refine Ensures.andThen ?_ fun hp => ensures_pure trivial
      refine (ensures_look fun _ => rfl).andThen fun before => ?_
      refine Ensures.andThen (ensures_update (fun _ => quietlyAdds_refl _) fun _ => List.prefix_refl _) fun _ => ?_
      refine (ensures_look fun _ => rfl).andThen fun after => ?_
      exact ensures_ite (ensures_cancelPhase.andThen fun _ => ensures_pure trivial) (ensures_pure trivial)
    | setHp hp => exact (ensures_setHp hp).andThen fun _ => ensures_pure trivial
    | shift => exact ensures_shiftPhase.andThen fun _ => ensures_pure trivial
    | cancel source => exact (ensures_cancel source).andThen fun _ => ensures_pure trivial
    | force index =>
      exact Ensures.andThen (ensures_updateExecutor fun _ => rfl) fun _ => ensures_pure trivial
    | stop =>
      exact Ensures.andThen (ensures_updateExecutor fun _ => rfl) fun _ => ensures_pure trivial
    | allowFinish allow =>
      exact Ensures.andThen (ensures_updateExecutor fun _ => rfl) fun _ => ensures_pure trivial
  exact (h m trivial).1

theorem acted_advances (actions : List Outside) (m : Machine) : m.Advances (fun _ => False) (m.acted actions) := by
  induction actions generalizing m with
  | nil => exact .refl _
  | cons action rest ih =>
    rw [acted_cons]
    exact (act_advances action m).trans (ih _)

/-- Others act on the world and on sources, and not on tasks and the clock. -/
theorem acted_keeps (actions : List Outside) (m : Machine) :
    (m.acted actions).clock = m.clock ∧ (m.acted actions).tasks = m.tasks ∧
      (m.acted actions).spawned = m.spawned ∧ m.sources.Ages (m.acted actions).sources := by
  have hadvances := acted_advances actions m
  obtain ⟨new, hnew, hnone⟩ := hadvances.spawned
  refine ⟨hadvances.clock, hadvances.tasks, ?_, hadvances.sources⟩
  rw [hnew, List.eq_nil_iff_forall_not_mem.2 hnone, List.append_nil]

section Runs

variable (acts : Nat → List Outside) (dt : Float)

/-- A run just before its frames. Others act on it between the frames; what they did before the first of
them has happened already. -/
def states (m : Machine) : Nat → Machine
  | 0 => m
  | n + 1 => ((states m n).tick.closed dt).acted (acts (n + 1))

/-- The place at which a task takes its turn, frame by frame, as long as it is not finished. -/
def place (m : Machine) (start : Nat) : Nat → Option Nat
  | 0 => some start
  | n + 1 => do
    let here ← place m start n
    let poll ← (states acts dt m n).polls[here]?
    let _ ← poll.kept
    some (((states acts dt m n).polls.take here).filterMap Poll.kept).length

/-- The turns of a task, frame by frame, given the place at which it takes the first of them. -/
def follow (m : Machine) (start n : Nat) : Option Poll := do
  (states acts dt m n).polls[← place acts dt m start n]?

/-- All turns of some frames, in order. -/
def history (m : Machine) (frames : Nat) : List Poll :=
  (List.range frames).flatMap fun n => (states acts dt m n).polls

end Runs

variable {acts : Nat → List Outside} {dt : Float} {m : Machine} {start n : Nat} {poll : Poll}

/-! ### Moments of a run -/

/-- What can happen to a run between two moments: a turn of some activity, an action from outside, or
anything that leaves the sources alone. -/
inductive Moves : Machine → Machine → Prop
  | turn (a : Activity) (p : Machine) : Moves p (a.step p).2
  | outside (action : Outside) (p : Machine) : Moves p (action.act.run p).2
  | other {p q : Machine} (h : q.sources = p.sources) : Moves p q

/-- A later moment of a run, whatever happens meanwhile. -/
def Later : Machine → Machine → Prop := Relation.ReflTransGen Moves

theorem Later.trans {p q r : Machine} (hpq : p.Later q) (hqr : q.Later r) : p.Later r :=
  Relation.ReflTransGen.trans hpq hqr

theorem later_of_moves {p q : Machine} (h : Moves p q) : p.Later q := .single h

/-- Sources that have ended by some moment have ended at every later one. -/
theorem Later.ages {p q : Machine} (h : p.Later q) : p.sources.Ages q.sources := by
  induction h with
  | refl => exact .refl _
  | tail _ hmove ih =>
    refine ih.trans ?_
    cases hmove with
    | turn a => exact (a.step_advances _).sources
    | outside action => exact (act_advances action _).sources
    | other h => exact h ▸ .refl _

theorem later_acted (actions : List Outside) (m : Machine) : m.Later (m.acted actions) := by
  induction actions generalizing m with
  | nil => exact .refl
  | cons action rest ih =>
    rw [acted_cons]
    exact (later_of_moves (.outside action m)).trans (ih _)

/-- The turns of a frame find later and later moments. -/
theorem polls_later (m : Machine) :
    m.polls.Pairwise (fun x y => x.after.Later y.before) ∧
      (∀ x ∈ m.polls, m.Later x.before ∧ x.after.Later m.tick) ∧ m.Later m.tick := by
  have hturn : ∀ a (p : Machine), p.Later ((Activity.taskTurn a).run p).2 := fun a p => by
    rw [Activity.run_taskTurn]
    exact later_of_moves (.turn a p)
  obtain ⟨hpair, last, hmem, hlast, htick⟩ :=
    Scheduler.polls_pairwise Activity.rank (R := Later) (fun _ => .refl) (fun _ _ _ => Later.trans) hturn
      (fun p => later_of_moves (q := { p with spawned := [] }) (.other rfl)) m
  have hsources : m.tick.sources = last.sources := by rw [tick, htick]
  have hend : Later last m.tick := later_of_moves (.other hsources)
  exact ⟨hpair, fun x hx => ⟨(hmem x hx).1, (hmem x hx).2.trans hend⟩, hlast.trans hend⟩

theorem states_later (n : Nat) : (states acts dt m n).tick.Later (states acts dt m (n + 1)) := by
  have hclosed : (states acts dt m n).tick.Later ((states acts dt m n).tick.closed dt) :=
    later_of_moves (.other rfl)
  exact hclosed.trans (later_acted (acts (n + 1)) _)

theorem states_later_of_le {n k : Nat} (h : n ≤ k) : (states acts dt m n).Later (states acts dt m k) := by
  induction h with
  | refl => exact .refl
  | step _ ih => exact ih.trans ((polls_later _).2.2.trans (states_later _))

/-- The turns of a run find later and later moments. -/
theorem history_pairwise (acts : Nat → List Outside) (dt : Float) (m : Machine) (frames : Nat) :
    (history acts dt m frames).Pairwise fun x y => x.after.Later y.before := by
  refine List.pairwise_flatMap.2 ⟨fun n _ => (polls_later _).1, ?_⟩
  refine List.pairwise_lt_range.imp fun {n k} hlt x hx y hy => ?_
  have hnext : (states acts dt m (n + 1)).Later (states acts dt m k) := states_later_of_le (Nat.succ_le_of_lt hlt)
  exact ((polls_later _).2.1 x hx).2.trans ((states_later n).trans (hnext.trans ((polls_later _).2.1 y hy).1))

/-! ### Following a task -/

/-- A turn leaves the clock alone, and so does a whole frame before it ends. -/
theorem clock_of_mem_polls (h : poll ∈ m.polls) : poll.before.clock = m.clock := by
  have hturn : ∀ a (p : Machine), ((Activity.taskTurn a).run p).2.clock = p.clock := fun a p => by
    rw [Activity.run_taskTurn]
    exact (a.step_advances p).clock
  obtain ⟨-, last, hmem, -, -⟩ :=
    Scheduler.polls_pairwise Activity.rank (R := fun p q => q.clock = p.clock) (fun _ => rfl)
      (fun _ _ _ hpq hqr => hqr.trans hpq) hturn (fun _ => rfl) m
  exact (hmem poll h).1

theorem tick_clock (m : Machine) : m.tick.clock = m.clock.tick := by
  have hturn : ∀ a (p : Machine), ((Activity.taskTurn a).run p).2.clock = p.clock := fun a p => by
    rw [Activity.run_taskTurn]
    exact (a.step_advances p).clock
  obtain ⟨-, last, -, hlast, htick⟩ :=
    Scheduler.polls_pairwise Activity.rank (R := fun p q => q.clock = p.clock) (fun _ => rfl)
      (fun _ _ _ hpq hqr => hqr.trans hpq) hturn (fun _ => rfl) m
  rw [tick, htick, hlast]

theorem states_clock (n : Nat) : (states acts dt m n).clock = { m.clock with frame := m.clock.frame + n } := by
  induction n with
  | zero => rfl
  | succ n ih =>
    have hclosed : ((states acts dt m n).tick.closed dt).clock = (states acts dt m n).tick.clock := rfl
    rw [states, (acted_keeps _ _).1, hclosed, tick_clock, ih]
    rfl

theorem states_tasks (n : Nat) :
    (states acts dt m (n + 1)).tasks = (states acts dt m n).polls.filterMap Poll.kept := by
  have hclosed : ((states acts dt m n).tick.closed dt).tasks = (states acts dt m n).tick.tasks := rfl
  rw [states, (acted_keeps _ _).2.1, hclosed]
  exact Scheduler.tick_tasks _

theorem follow_clock (h : follow acts dt m start n = some poll) :
    poll.before.clock = { m.clock with frame := m.clock.frame + n } := by
  obtain ⟨here, -, hpoll⟩ := Option.bind_eq_some_iff.1 h
  rw [clock_of_mem_polls (List.mem_of_getElem? hpoll), states_clock]

/-- A task that is not finished has a place in the next frame. -/
theorem place_succ {here : Nat} (h : place acts dt m start n = some here)
    (hpoll : (states acts dt m n).polls[here]? = some poll) (hkept : poll.kept.isSome) :
    place acts dt m start (n + 1) =
      some (((states acts dt m n).polls.take here).filterMap Poll.kept).length := by
  obtain ⟨left, hleft⟩ := Option.isSome_iff_exists.1 hkept
  simp only [place, h, Option.bind_eq_bind, Option.bind_some]
  rw [hpoll, Option.bind_some, hleft]
  rfl

/-- A task that is not finished takes its next turn in the next frame. -/
theorem follow_succ {left : Activity} (h : follow acts dt m start n = some poll)
    (hleft : poll.kept = some left) :
    ∃ next, follow acts dt m start (n + 1) = some next ∧ next.task = left := by
  obtain ⟨here, hplace, hpoll⟩ := Option.bind_eq_some_iff.1 h
  have htasks := Scheduler.filterMap_getElem? hpoll hleft
  have hnext : (states acts dt m (n + 1)).tasks = (states acts dt m n).polls.filterMap Poll.kept := states_tasks n
  rw [← hnext] at htasks
  obtain ⟨next, hnext, htask⟩ := Scheduler.polls_getElem? Activity.rank htasks
  have hkept : poll.kept.isSome := by rw [hleft]; rfl
  exact ⟨next, Option.bind_eq_some_iff.2 ⟨_, place_succ hplace hpoll hkept, hnext⟩, htask⟩

/-- A task that is finished takes no turn any more. -/
theorem follow_succ_of_finished (h : follow acts dt m start n = some poll) (hleft : poll.kept = none) :
    follow acts dt m start (n + 1) = none := by
  obtain ⟨here, hplace, hpoll⟩ := Option.bind_eq_some_iff.1 h
  have hnone : place acts dt m start (n + 1) = none := by
    simp only [place, hplace, Option.bind_eq_bind, Option.bind_some]
    rw [hpoll, Option.bind_some, hleft]
    rfl
  rw [follow, hnone]
  rfl

theorem follow_none_succ {n : Nat} (h : follow acts dt m start n = none) :
    follow acts dt m start (n + 1) = none := by
  rw [follow, Option.bind_eq_bind, Option.bind_eq_none_iff] at h ⊢
  intro here hhere
  rw [place, Option.bind_eq_bind, Option.bind_eq_some_iff] at hhere
  obtain ⟨before, hbefore, hhere⟩ := hhere
  rw [h before hbefore] at hhere
  cases hhere

/-- A task that takes no turn any more takes none later. -/
theorem follow_none_of_le {n k : Nat} (h : follow acts dt m start n = none) (hle : n ≤ k) :
    follow acts dt m start k = none := by
  induction hle with
  | refl => exact h
  | step _ ih => exact follow_none_succ ih

end Machine

end Barrage
