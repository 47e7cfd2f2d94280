import Barrage.Proofs.Machine.Following
import Barrage.Proofs.Machine.Timelines
import Barrage.Proofs.Machine.Waiters
import Mathlib.Data.Nat.Find

/-!
# When waits resolve

A task that comes to a wait polls it in that frame and in every frame after it, until a poll gives an answer; in
the same turn it goes on with that answer. In each frame the token is looked at first, so a wait ends as
cancelled in the first frame in which the task finds a source of the token cancelled, be it the very frame in
which the wait would be over.

What else happens in the run is left open: other tasks take their turns before and behind that of the task, and
between the frames others may do what they like.

## Main definitions

* `Waiting` — a task of a run that comes to a wait
* `Waiting.Finds`, `Waiting.ConditionIs` — what a poll of the task finds
* `Waiting.ResolvesAt` — the frame in which the wait is over, and its answer

## Main results

* `Waiting.resolvesAt_iff` — a wait resolves with the first answer that a poll gives
* `Scheduler.waits_resolve` — the frames and answers of waits for frames and for conditions
-/

namespace Barrage

open Scheduler

/-- A task of a run that comes to a wait in the first frame, in the middle of its turn or at once. -/
structure Waiting {σ τ : Type} (turn : τ → SchedulerM σ τ (Option τ)) (rank : τ → Nat) (γ : Type) where
  run : Run turn rank
  /-- The place of the task among those that take their turns in the first frame. -/
  start : Nat
  first : Poll σ τ
  waiter : Waiter turn γ
  wait : Wait γ
  /-- The state in which the task comes to the wait. -/
  entry : Scheduler σ τ
  follow_start : run.follow start 0 = some first
  clock_entry : entry.clock = first.before.clock
  run_first : (turn first.task).run first.before = (turn (waiter.task ⟨wait, none⟩)).run entry

namespace Waiting

variable {σ τ γ : Type} {turn : τ → SchedulerM σ τ (Option τ)} {rank : τ → Nat}

section Definitions

variable (W : Waiting turn rank γ)

/-- The frame in which the task comes to the wait. -/
def frame : Nat := (W.run.state 0).clock.frame

/-- The state that the task finds in some frame, counted from that in which it comes to the wait. -/
def found : Nat → Option (Scheduler σ τ)
  | 0 => some W.entry
  | k + 1 => (W.run.follow W.start (k + 1)).map Poll.before

/-- The task finds a source cancelled that the links of a token reach. -/
def Finds (l : CancelToken.Linking) (k : Nat) : Prop :=
  ∃ p, W.found k = some p ∧ ∃ source, l.Reaches source ∧ p.sources.isCancelled source

/-- In the state that the task finds, a condition comes to some value. -/
def ConditionIs (condition : γ) (value : Except MachineError Bool) (k : Nat) : Prop :=
  ∃ p, W.found k = some p ∧ ((W.waiter.holds condition).run p).1 = value

/-- In some frame the task polls its wait, of which as much is left as after a poll in each frame before. -/
structure Polls (k : Nat) (p : Scheduler σ τ) : Prop where
  found : W.found k = some p
  frame : p.clock.frame = W.frame + k
  turn : ∃ (poll : Poll σ τ) (s : Suspended γ), W.run.follow W.start k = some poll ∧
    s.wait = W.wait.left k ∧ s.isReady p.clock ∧
    (turn poll.task).run poll.before = (s.turn W.waiter.holds W.waiter.task W.waiter.next).run p

/-- A poll of the wait in some frame gives an answer, or none. -/
def Gives (answer? : Option (Except MachineError Unit)) (k : Nat) : Prop :=
  ∃ p, W.found k = some p ∧ (W.wait.left k).answer? W.waiter.holds p = answer?

/-- The wait is polled in every frame up to some frame, gives no answer before that, and then gives an answer,
with which the task goes on in the same turn. -/
structure ResolvesAt (k : Nat) (answer : Except MachineError Unit) : Prop where
  waits : ∀ j < k, ∃ p, W.Polls j p ∧
    (((W.wait.left j).poll W.waiter.holds).run p).1 = .waiting (W.wait.left (j + 1))
  answers : ∃ p q poll, W.Polls k p ∧ ((W.wait.left k).poll W.waiter.holds).run p = (.done answer, q) ∧
    W.run.follow W.start k = some poll ∧ (turn poll.task).run poll.before = (W.waiter.next answer).run q

end Definitions

variable {W : Waiting turn rank γ} {k : Nat} {p : Scheduler σ τ} {answer : Except MachineError Unit}

theorem polls_zero (hspawn : Spawning turn) : W.Polls 0 W.entry where
  found := rfl
  frame := by rw [W.clock_entry, Run.follow_frame hspawn W.follow_start, Waiting.frame]
  turn := by
    refine ⟨W.first, ⟨W.wait, none⟩, W.follow_start, W.wait.left_zero.symm, rfl, ?_⟩
    rw [W.run_first, W.waiter.run_turn _ _ rfl]

/-- A task whose poll gives no answer polls what is left of its wait in the next frame. -/
theorem Polls.succ (hspawn : Spawning turn) (h : W.Polls k p)
    (hnone : (W.wait.left k).answer? W.waiter.holds p = none) : ∃ q, W.Polls (k + 1) q := by
  obtain ⟨poll, s, hpoll, hwait, hready, hturn⟩ := h.turn
  rw [← hwait] at hnone
  rw [Suspended.run_turn_of_none hready hnone, hwait, Wait.left_succ] at hturn
  have hlast : ((W.wait.left k).polled W.waiter.holds p).clock.frame = W.frame + k := by
    have hclock := (hspawn poll.task poll.before).clock
    rw [hturn] at hclock
    rw [hclock, Run.follow_frame hspawn hpoll, Waiting.frame]
  rw [hlast] at hturn
  obtain ⟨next, hnext, htask⟩ := Run.follow_succ hpoll (congrArg Prod.fst hturn)
  have hframe : next.before.clock.frame = W.frame + (k + 1) := Run.follow_frame hspawn hnext
  -- The wait was suspended in the frame before this one, so nothing holds it up.
  have hready' : Suspended.isReady ⟨W.wait.left (k + 1), some ⟨W.frame + k⟩⟩ next.before.clock := by
    simp only [Suspended.isReady, NextFrame.isOver, Option.all_some, hframe, decide_eq_true_eq]
    omega
  refine ⟨next.before, ?_, hframe, next, _, hnext, rfl, hready', ?_⟩
  · rw [Waiting.found, hnext]
    rfl
  · rw [htask, W.waiter.run_turn _ _ hready']

theorem Gives.unique {a b : Option (Except MachineError Unit)} (ha : W.Gives a k) (hb : W.Gives b k) : a = b := by
  obtain ⟨p, hp, rfl⟩ := ha
  obtain ⟨q, hq, rfl⟩ := hb
  rw [Option.some.inj (hp.symm.trans hq)]

/-- As long as its polls give no answer, the task polls its wait in every frame. -/
theorem exists_polls (hspawn : Spawning turn) (hnone : ∀ j < k, W.Gives none j) : ∃ p, W.Polls k p := by
  induction k with
  | zero => exact ⟨W.entry, polls_zero hspawn⟩
  | succ k ih =>
    obtain ⟨p, hp⟩ := ih fun j hj => hnone j (Nat.lt_succ_of_lt hj)
    obtain ⟨q, hq, hanswer⟩ := hnone k (Nat.lt_succ_self k)
    obtain rfl : q = p := Option.some.inj (hq.symm.trans hp.found)
    exact hp.succ hspawn hanswer

/-- A wait resolves with the first answer that a poll gives. -/
theorem resolvesAt_iff (hspawn : Spawning turn) :
    W.ResolvesAt k answer ↔ (∀ j < k, W.Gives none j) ∧ W.Gives (some answer) k := by
  constructor
  · intro h
    refine ⟨fun j hj => ?_, ?_⟩
    · obtain ⟨p, hp, hpoll⟩ := h.waits j hj
      rw [Wait.run_poll, Wait.left_succ] at hpoll
      exact ⟨p, hp.found, Turn.ofAnswer?_eq_waiting_iff.1 hpoll⟩
    · obtain ⟨p, q, poll, hp, hpoll, -⟩ := h.answers
      rw [Wait.run_poll] at hpoll
      exact ⟨p, hp.found, Turn.ofAnswer?_eq_done_iff.1 (congrArg Prod.fst hpoll)⟩
  · rintro ⟨hnone, p, hfound, hanswer⟩
    refine ⟨fun j hj => ?_, ?_⟩
    · obtain ⟨q, hq⟩ := exists_polls hspawn fun i hi => hnone i (Nat.lt_trans hi hj)
      obtain ⟨q', hq', hans⟩ := hnone j hj
      obtain rfl : q' = q := Option.some.inj (hq'.symm.trans hq.found)
      refine ⟨q', hq, ?_⟩
      rw [Wait.run_poll, Wait.left_succ]
      exact Turn.ofAnswer?_eq_waiting_iff.2 hans
    · obtain ⟨q, hq⟩ := exists_polls hspawn hnone
      obtain rfl : p = q := Option.some.inj (hfound.symm.trans hq.found)
      obtain ⟨poll, s, hpoll, hwait, hready, hturn⟩ := hq.turn
      refine ⟨p, (W.wait.left k).polled W.waiter.holds p, poll, hq, ?_, hpoll, ?_⟩
      · rw [Wait.run_poll, hanswer]
        rfl
      · rw [hturn, Suspended.run_turn_of_some hready (hwait ▸ hanswer), hwait]

/-- A wait resolves only once. -/
theorem ResolvesAt.unique (hspawn : Spawning turn) {k' : Nat} {answer' : Except MachineError Unit}
    (h : W.ResolvesAt k answer) (h' : W.ResolvesAt k' answer') : k = k' ∧ answer = answer' := by
  obtain ⟨hnone, hgives⟩ := (resolvesAt_iff hspawn).1 h
  obtain ⟨hnone', hgives'⟩ := (resolvesAt_iff hspawn).1 h'
  rcases Nat.lt_trichotomy k k' with hlt | rfl | hlt
  · cases Gives.unique hgives (hnone' k hlt)
  · exact ⟨rfl, Option.some.inj (hgives.unique hgives')⟩
  · cases Gives.unique hgives' (hnone k' hlt)

/-! ### What a poll finds -/

variable {l : CancelToken.Linking} {n : Nat} {condition : γ}

theorem finds_iff (hfound : W.found k = some p) : W.Finds l k ↔ l.token.isCancelled p.sources := by
  simp only [Finds, hfound, Option.some.injEq, exists_eq_left', CancelToken.Linking.isCancelled_token]

theorem conditionIs_iff (hfound : W.found k = some p) {value : Except MachineError Bool} :
    W.ConditionIs condition value k ↔ ((W.waiter.holds condition).run p).1 = value := by
  simp only [ConditionIs, hfound, Option.some.injEq, exists_eq_left']

instance : Decidable (W.Finds l k) :=
  decidable_of_iff ((W.found k).any fun p => l.token.isCancelled p.sources) <| by
    cases hfound : W.found k with
    | none => simp [Finds, hfound]
    | some p => simp [finds_iff hfound]

/-- Whatever is waited for, a cancellation comes first. -/
theorem Finds.gives (htoken : W.wait.token = l.token) (h : W.Finds l k) :
    W.Gives (some (.error .cancelled)) k := by
  obtain ⟨p, hfound, -⟩ := id h
  refine ⟨p, hfound, Wait.answer?_of_cancelled _ ?_⟩
  rw [Wait.token_left, htoken]
  exact (finds_iff hfound).1 h

/-- A wait for frames that is not cancelled goes by the number of its polls. -/
theorem Polls.gives_frames (hwait : W.wait = .frames n l.token) (hp : W.Polls k p) (hlive : ¬ W.Finds l k) :
    W.Gives (if n - k = 0 then some (.ok ()) else none) k := by
  refine ⟨p, hp.found, ?_⟩
  rw [hwait]
  exact Wait.answer?_frames _ fun h => hlive ((finds_iff hp.found).2 h)

/-- A wait for frames gives no answer before its last frame unless it is cancelled. -/
theorem gives_none_of_frames (hspawn : Spawning turn) (hwait : W.wait = .frames n l.token) (hle : k ≤ n)
    (hlive : ∀ j < k, ¬ W.Finds l j) : ∀ j < k, W.Gives none j := by
  induction k with
  | zero => exact fun j hj => absurd hj (Nat.not_lt_zero j)
  | succ k ih =>
    have hbefore := ih (Nat.le_of_succ_le hle) fun j hj => hlive j (Nat.lt_succ_of_lt hj)
    intro j hj
    rcases Nat.lt_succ_iff_lt_or_eq.1 hj with hj | rfl
    · exact hbefore j hj
    · obtain ⟨p, hp⟩ := exists_polls hspawn hbefore
      have hgives := hp.gives_frames hwait (hlive j hj)
      rwa [if_neg (by omega)] at hgives

/-- A wait for a condition that is not cancelled goes by the value of the condition. -/
theorem gives_until_iff (hwait : W.wait = .until condition l.token)
    {answer? : Option (Except MachineError Unit)} :
    W.Gives answer? k ↔ W.Finds l k ∧ answer? = some (.error .cancelled) ∨
      ¬ W.Finds l k ∧ ∃ value, W.ConditionIs condition value k ∧ Wait.verdict value = answer? := by
  cases hfound : W.found k with
  | none => simp [Gives, Finds, ConditionIs, hfound]
  | some p =>
    have hgives : W.Gives answer? k ↔
        (Wait.until condition l.token).answer? W.waiter.holds p = answer? := by
      simp only [Gives, hfound, Option.some.injEq, exists_eq_left', hwait, Wait.left]
    rw [hgives, finds_iff hfound]
    by_cases hcancelled : l.token.isCancelled p.sources
    · have hanswer : (Wait.until condition l.token).answer? W.waiter.holds p = some (.error .cancelled) :=
        Wait.answer?_of_cancelled _ hcancelled
      simp [hanswer, hcancelled, eq_comm]
    · rw [Wait.answer?_until _ hcancelled]
      simp [hcancelled, conditionIs_iff hfound]

theorem gives_none_until_iff (hwait : W.wait = .until condition l.token) :
    W.Gives none k ↔ ¬ W.Finds l k ∧ W.ConditionIs condition (.ok false) k := by
  rw [gives_until_iff hwait]
  simp [Wait.verdict_eq_none_iff]

theorem gives_some_until_iff (hwait : W.wait = .until condition l.token) :
    W.Gives (some answer) k ↔ W.Finds l k ∧ answer = .error .cancelled ∨
      ¬ W.Finds l k ∧ (W.ConditionIs condition (.ok true) k ∧ answer = .ok () ∨
        ∃ e, W.ConditionIs condition (.error e) k ∧ answer = .error e) := by
  rw [gives_until_iff hwait, Option.some.injEq]
  refine or_congr_right (and_congr_right fun _ => ?_)
  simp only [Wait.verdict_eq_some_iff]
  constructor
  · rintro ⟨_, hvalue, ⟨rfl, hanswer⟩ | ⟨e, rfl, hanswer⟩⟩
    · exact .inl ⟨hvalue, hanswer⟩
    · exact .inr ⟨e, hvalue, hanswer⟩
  · rintro (⟨hvalue, hanswer⟩ | ⟨e, hvalue, hanswer⟩)
    · exact ⟨_, hvalue, .inl ⟨rfl, hanswer⟩⟩
    · exact ⟨_, hvalue, .inr ⟨e, rfl, hanswer⟩⟩

/-- A poll looks at the condition in the state that the task finds, and not if that is one of a cancellation. -/
theorem Polls.looks_until (hwait : W.wait = .until condition l.token) (hp : W.Polls k p) :
    (W.Finds l k → (W.wait.left k).looks W.waiter.holds p = []) ∧
      (¬ W.Finds l k → (W.wait.left k).looks W.waiter.holds p = [p]) := by
  rw [hwait, finds_iff hp.found]
  have hlooks := Wait.looks_until W.waiter.holds condition l.token p
  exact ⟨fun h => hlooks.trans (if_pos h), fun h => hlooks.trans (if_neg h)⟩

end Waiting

namespace Scheduler

variable {σ τ γ : Type} {turn : τ → SchedulerM σ τ (Option τ)} {rank : τ → Nat}

/-- A task that comes to a wait polls it in every frame until it resolves, and it resolves only once. A wait for
`n` frames resolves in the first frame in which the task finds a source of its token cancelled, in the frame of
its last poll as in any other, and otherwise well and in the `n`-th frame after the first. A wait for a condition
resolves in the first frame in which the task finds a source cancelled or the condition true, or the condition
fails; a source that is cancelled comes first. Its polls look at the condition once in every frame, and not in
that of a cancellation. -/
theorem waits_resolve (hspawn : Spawning turn) (W : Waiting turn rank γ) (l : CancelToken.Linking) :
    (∀ k p, W.Polls k p → p.clock.frame = W.frame + k) ∧
    (∀ k k' answer answer', W.ResolvesAt k answer → W.ResolvesAt k' answer' → k = k' ∧ answer = answer') ∧
    (∀ n, W.wait = .frames n l.token → ∃ k ≤ n, (∀ j < k, ¬ W.Finds l j) ∧
      (W.Finds l k ∧ W.ResolvesAt k (.error .cancelled) ∨ ¬ W.Finds l k ∧ k = n ∧ W.ResolvesAt k (.ok ()))) ∧
    ∀ condition, W.wait = .until condition l.token →
      (∀ k answer, W.ResolvesAt k answer ↔
        (∀ j < k, ¬ W.Finds l j ∧ W.ConditionIs condition (.ok false) j) ∧
          (W.Finds l k ∧ answer = .error .cancelled ∨
            ¬ W.Finds l k ∧
              (W.ConditionIs condition (.ok true) k ∧ answer = .ok () ∨
                ∃ e, W.ConditionIs condition (.error e) k ∧ answer = .error e))) ∧
      ∀ k, (∀ j < k, ¬ W.Finds l j ∧ W.ConditionIs condition (.ok false) j) →
        ∃ p, W.Polls k p ∧ (W.Finds l k → (W.wait.left k).looks W.waiter.holds p = []) ∧
          (¬ W.Finds l k → (W.wait.left k).looks W.waiter.holds p = [p]) := by
  refine ⟨fun k p hp => hp.frame, fun k k' answer answer' h h' => h.unique hspawn h',
    fun n hwait => ?frames, fun condition hwait => ⟨fun k answer => ?resolves, fun k hbefore => ?looks⟩⟩
  case frames =>
    classical
    -- The first frame that finds the cancellation or is the last one anyway.
    have hlast : ∃ k, W.Finds l k ∨ k = n := ⟨n, .inr rfl⟩
    have hle : Nat.find hlast ≤ n := Nat.find_min' hlast (.inr rfl)
    have hlive : ∀ j < Nat.find hlast, ¬ W.Finds l j := fun j hj h => Nat.find_min hlast hj (.inl h)
    have hnone := Waiting.gives_none_of_frames hspawn hwait hle hlive
    refine ⟨Nat.find hlast, hle, hlive, ?_⟩
    by_cases hfinds : W.Finds l (Nat.find hlast)
    · have hgives := hfinds.gives (by rw [hwait]; rfl)
      exact .inl ⟨hfinds, (Waiting.resolvesAt_iff hspawn).2 ⟨hnone, hgives⟩⟩
    · have hn : Nat.find hlast = n := (Nat.find_spec hlast).resolve_left hfinds
      obtain ⟨p, hp⟩ := Waiting.exists_polls hspawn hnone
      have hgives := hp.gives_frames hwait hfinds
      rw [if_pos (by omega)] at hgives
      exact .inr ⟨hfinds, hn, (Waiting.resolvesAt_iff hspawn).2 ⟨hnone, hgives⟩⟩
  case resolves =>
    rw [Waiting.resolvesAt_iff hspawn, Waiting.gives_some_until_iff hwait]
    simp only [Waiting.gives_none_until_iff hwait]
  case looks =>
    obtain ⟨p, hp⟩ := Waiting.exists_polls hspawn fun j hj =>
      (Waiting.gives_none_until_iff hwait).2 (hbefore j hj)
    exact ⟨p, hp, hp.looks_until hwait⟩

end Scheduler

/-! ### Some tasks that wait -/

section

variable {σ τ γ : Type} {turn : τ → SchedulerM σ τ (Option τ)}

/-- A task that is alone in a run and waits, while others change the sources. -/
def Waiting.alone (waiter : Waiter turn γ) (rank : τ → Nat) (wait : Wait γ) (change : Nat → Sources → Sources)
    (shared : σ) : Waiting turn rank γ :=
  let task := waiter.task ⟨wait, none⟩
  let s : Scheduler σ τ := { clock := ⟨0.1, 5⟩, sources := ⟨[.live, .live]⟩, tasks := [task], shared }
  { run := .ofChanges change s
    start := 0
    first := ⟨task, s⟩
    waiter
    wait
    entry := s
    follow_start := rfl
    clock_entry := rfl
    run_first := rfl }

end

/-- A token that is linked to two sources, one of them twice. -/
def nestedLinking : CancelToken.Linking := .linked [.linked [.ofSource 1, .ofSource 0], .none, .ofSource 1]

/-- The first source is cancelled just before some frame. -/
def cancelBefore (frame n : Nat) (s : Sources) : Sources := if n = frame then s.cancel 0 else s

/-- Turns of tasks that compare frames, and do nothing when their wait is over. -/
def sleep : Suspended Unit → SchedulerM Unit (Suspended Unit) (Option (Suspended Unit)) :=
  Suspended.turn (fun _ => return .ok false) id fun _ => return none

/-- A task that is a wait for two frames. -/
def sleeper : Waiting sleep (fun _ => 0) Unit :=
  .alone (Suspended.waiter _ _) _ (.frames 2 nestedLinking.token) (cancelBefore 2) ()

/-- A routine that waits for a frame. -/
def watcher : Waiting (Routine.turn (α := Nat)) Routine.rank FrameCondition :=
  .alone (Routine.waiter { name := "watcher", token := .none, onEnd := .logged, steps := [] }) _
    (.until ⟨7, false⟩ nestedLinking.token) (cancelBefore 3) {}

/-- A tree that waits for what never comes, until others cancel it. -/
def idler : Waiting Activity.taskTurn Activity.rank Callable :=
  let never := constantly (.bool false)
  let task := Machine.rootTask (.leaf (.waitUntil never)) (.ofSource 0)
  let m : Machine := (soleSource .live).spawn task
  { run := Machine.run (fun n => if n = 1 then [.cancel 0] else []) 0.1 m
    start := 0
    first := ⟨task, soleSource .live⟩
    waiter := Activity.waiter [.report]
    wait := .until never (.ofSource 0)
    entry := soleSource .live
    follow_start := rfl
    clock_entry := rfl
    run_first := rfl }

namespace Scheduler

/-- The sleeper is cancelled in the frame of its last poll, the watcher sees its frame before the cancellation,
and the idler is cancelled in the second frame. -/
theorem waits_resolve_nested :
    sleeper.ResolvesAt 2 (.error .cancelled) ∧ watcher.ResolvesAt 2 (.ok ()) ∧
      idler.ResolvesAt 1 (.error .cancelled) := by
  have hsleep : Spawning sleep := Suspended.adds_turn (fun _ => .pure _) fun _ => .pure _
  obtain ⟨-, -, hframes, -⟩ := waits_resolve hsleep sleeper nestedLinking
  obtain ⟨-, -, -, huntil⟩ := waits_resolve Routine.spawning watcher nestedLinking
  obtain ⟨-, -, -, hnever⟩ := waits_resolve Activity.spawning idler (.ofSource 0)
  refine ⟨?sleeper, ((huntil _ rfl).1 2 _).2 ⟨?before, .inr ⟨by decide, .inl ⟨⟨_, rfl, rfl⟩, rfl⟩⟩⟩,
    ((hnever _ rfl).1 1 _).2 ⟨?never, .inl ⟨by decide, rfl⟩⟩⟩
  case sleeper =>
    have hcancelled : sleeper.Finds nestedLinking 2 := by decide
    have hlive : ∀ k < 2, ¬ sleeper.Finds nestedLinking k := by decide
    obtain ⟨k, hle, -, ⟨hfinds, hresolves⟩ | ⟨hfinds, rfl, -⟩⟩ := hframes 2 rfl
    · obtain rfl : k = 2 := hle.antisymm (Nat.le_of_not_lt fun hlt => hlive k hlt hfinds)
      exact hresolves
    · exact absurd hcancelled hfinds
  case before =>
    intro j hj
    have hlive : ∀ j < 2, ¬ watcher.Finds nestedLinking j := by decide
    refine ⟨hlive j hj, ?_⟩
    rcases j with _ | _ | j
    · exact ⟨_, rfl, rfl⟩
    · exact ⟨_, rfl, rfl⟩
    · omega
  case never =>
    intro j hj
    obtain rfl : j = 0 := Nat.lt_one_iff.1 hj
    exact ⟨by decide, _, rfl, rfl⟩

end Scheduler

end Barrage
