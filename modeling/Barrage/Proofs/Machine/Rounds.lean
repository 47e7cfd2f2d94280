import Barrage.Machine.Scheduler
import Mathlib.Order.Basic

/-!
# Rounds

In a frame every task takes one turn, and those that are spawned meanwhile take theirs after all others. So
a frame is a round over a queue: the task in front takes its turn, and what it spawns is put at the back.
The generations of a frame are not seen any more in this view, and neither is the bound on their number: if
every task has a higher rank than those that it spawns, the queue is empty in the end.

## Main definitions

* `Poll`: a turn of a task, with the state that it found
* `Scheduler.polls`: the turns of a frame, in order
* `Scheduler.Round`: the moments of a frame between two turns

## Main results

* `Scheduler.tick_tasks`: the tasks after a frame are what its turns left
* `Scheduler.Round.rule`: what every turn of a round preserves from some moment on holds after the frame
-/

namespace Barrage

/-- A task that takes its turn, and the state just before. -/
structure Poll (σ τ : Type) where
  task : τ
  before : Scheduler σ τ

namespace Poll

variable {σ τ : Type} (turn : τ → SchedulerM σ τ (Option τ)) (poll : Poll σ τ)

/-- What is left of the task. -/
def kept : Option τ := ((turn poll.task).run poll.before).1

/-- The state after the turn. -/
def after : Scheduler σ τ := ((turn poll.task).run poll.before).2

end Poll

namespace Scheduler

variable {σ τ : Type} (turn : τ → SchedulerM σ τ (Option τ)) (rank : τ → Nat)

/-- The turns of the tasks of a list. -/
def pollsOf : List τ → Scheduler σ τ → List (Poll σ τ)
  | [], _ => []
  | task :: rest, s => ⟨task, s⟩ :: pollsOf rest ((turn task).run s).2

/-- The turns of some generations of spawned tasks. -/
def pollsOfGenerations : (count : Nat) → Scheduler σ τ → List (Poll σ τ)
  | 0, _ => []
  | count + 1, s =>
    match s.spawned with
    | [] => []
    | fresh =>
      let s := { s with spawned := [] }
      pollsOf turn fresh s ++ pollsOfGenerations count ((takeTurns turn fresh).run s).2

/-- The turns of a frame. -/
def polls (s : Scheduler σ τ) : List (Poll σ τ) :=
  pollsOf turn s.tasks s ++
    pollsOfGenerations turn (s.generationBound rank) ((takeTurns turn s.tasks).run s).2

variable {turn rank} {s : Scheduler σ τ}

theorem takeTurns_cons (task : τ) (rest : List τ) (s : Scheduler σ τ) :
    (takeTurns turn (task :: rest)).run s =
      ((((turn task).run s).1.toList ++ ((takeTurns turn rest).run ((turn task).run s).2).1),
        ((takeTurns turn rest).run ((turn task).run s).2).2) := rfl

theorem takeTurns_kept (tasks : List τ) (s : Scheduler σ τ) :
    ((takeTurns turn tasks).run s).1 = (pollsOf turn tasks s).filterMap (Poll.kept turn) := by
  induction tasks generalizing s with
  | nil => rfl
  | cons task rest ih =>
    rw [takeTurns_cons, pollsOf, ih]
    cases h : ((turn task).run s).1 with
    | none => rw [List.filterMap_cons_none (by exact h)]; rfl
    | some left => rw [List.filterMap_cons_some (by exact h)]; rfl

theorem generations_empty {count : Nat} (h : s.spawned = []) :
    (generations turn (count + 1)).run s = ([], { s with spawned := [] }) ∧
      pollsOfGenerations turn (count + 1) s = [] := by
  obtain ⟨clock, sources, tasks, spawned, shared⟩ := s
  subst h
  exact ⟨rfl, rfl⟩

theorem generations_cons (turn : τ → SchedulerM σ τ (Option τ)) (count : Nat) (h : s.spawned ≠ []) :
    (generations turn (count + 1)).run s =
      (let fresh := (takeTurns turn s.spawned).run { s with spawned := [] }
      let later := (generations turn count).run fresh.2
      (fresh.1 ++ later.1, later.2)) ∧
    pollsOfGenerations turn (count + 1) s =
      pollsOf turn s.spawned { s with spawned := [] } ++
        pollsOfGenerations turn count ((takeTurns turn s.spawned).run { s with spawned := [] }).2 := by
  obtain ⟨clock, sources, tasks, spawned, shared⟩ := s
  cases spawned with
  | nil => exact absurd rfl h
  | cons task rest => exact ⟨rfl, rfl⟩

theorem generations_kept (count : Nat) (s : Scheduler σ τ) :
    ((generations turn count).run s).1 = (pollsOfGenerations turn count s).filterMap (Poll.kept turn) := by
  induction count generalizing s with
  | zero => rfl
  | succ count ih =>
    by_cases h : s.spawned = []
    · rw [(generations_empty h).1, (generations_empty h).2]
      rfl
    · rw [(generations_cons turn _ h).1, (generations_cons turn _ h).2, List.filterMap_append, ← takeTurns_kept, ← ih]

/-- The tasks after a frame are what its turns left. -/
theorem tick_tasks (s : Scheduler σ τ) :
    ((tick turn rank).run s).2.tasks = (s.polls turn rank).filterMap (Poll.kept turn) := by
  rw [polls, List.filterMap_append, ← takeTurns_kept, ← generations_kept]
  rfl

/-- The state after a frame, but for its tasks and its clock, is that after the last generation. -/
theorem tick_eq (s : Scheduler σ τ) :
    ((tick turn rank).run s).2 =
      (let last := ((generations turn (s.generationBound rank)).run ((takeTurns turn s.tasks).run s).2).2
      { last with tasks := ((tick turn rank).run s).2.tasks, clock := last.clock.tick }) := rfl

/-! ### The turns of a frame -/

theorem pollsOf_tasks (tasks : List τ) (s : Scheduler σ τ) : (pollsOf turn tasks s).map Poll.task = tasks := by
  induction tasks generalizing s with
  | nil => rfl
  | cons task rest ih => rw [pollsOf, List.map_cons, ih]

/-- The first turns of a frame are those of the tasks that it begins with. -/
theorem polls_getElem? (rank : τ → Nat) {s : Scheduler σ τ} {place : Nat} {task : τ} (h : s.tasks[place]? = some task) :
    ∃ poll, (s.polls turn rank)[place]? = some poll ∧ poll.task = task := by
  have hmap : ((pollsOf turn s.tasks s)[place]?).map Poll.task = some task := by
    rw [← List.getElem?_map, pollsOf_tasks, h]
  obtain ⟨poll, hpoll, htask⟩ := Option.map_eq_some_iff.1 hmap
  refine ⟨poll, ?_, htask⟩
  rw [polls, List.getElem?_append_left (List.getElem?_eq_some_iff.1 hpoll).1, hpoll]

/-- What is left of a task is at a place among the tasks that is known. -/
theorem filterMap_getElem? {polls : List (Poll σ τ)} {place : Nat} {poll : Poll σ τ} {left : τ}
    (hpoll : polls[place]? = some poll) (hleft : poll.kept turn = some left) :
    (polls.filterMap (Poll.kept turn))[((polls.take place).filterMap (Poll.kept turn)).length]? = some left := by
  induction polls generalizing place with
  | nil => simp at hpoll
  | cons first rest ih =>
    cases place with
    | zero =>
      obtain rfl : first = poll := by simpa using hpoll
      rw [List.filterMap_cons_some hleft]
      rfl
    | succ place =>
      have hrest : rest[place]? = some poll := by simpa using hpoll
      have := ih hrest
      cases hfirst : first.kept turn with
      | none => rwa [List.take_succ_cons, List.filterMap_cons_none hfirst, List.filterMap_cons_none hfirst]
      | some other =>
        rw [List.take_succ_cons, List.filterMap_cons_some hfirst, List.filterMap_cons_some hfirst]
        simpa using this

/-- What a turn and the start of a generation preserve relates the turns of a frame in their order. -/
theorem polls_pairwise (rank : τ → Nat) {R : Scheduler σ τ → Scheduler σ τ → Prop} (hrefl : ∀ s, R s s)
    (htrans : ∀ s t u, R s t → R t u → R s u) (hturn : ∀ task s, R s ((turn task).run s).2)
    (htake : ∀ s : Scheduler σ τ, R s { s with spawned := [] }) (s : Scheduler σ τ) :
    (s.polls turn rank).Pairwise (fun x y => R (x.after turn) y.before) ∧
      ∃ last : Scheduler σ τ, (∀ x ∈ s.polls turn rank, R s x.before ∧ R (x.after turn) last) ∧ R s last ∧
        ((tick turn rank).run s).2 =
          { last with tasks := ((tick turn rank).run s).2.tasks, clock := last.clock.tick } := by
  have hlist : ∀ (tasks : List τ) (s : Scheduler σ τ),
      (pollsOf turn tasks s).Pairwise (fun x y => R (x.after turn) y.before) ∧
        (∀ x ∈ pollsOf turn tasks s, R s x.before ∧ R (x.after turn) ((takeTurns turn tasks).run s).2) ∧
        R s ((takeTurns turn tasks).run s).2 := by
    intro tasks
    induction tasks with
    | nil => exact fun s => ⟨.nil, by simp [pollsOf], hrefl s⟩
    | cons task rest ih =>
      intro s
      obtain ⟨hpair, hmem, hlast⟩ := ih ((turn task).run s).2
      rw [pollsOf, takeTurns_cons]
      refine ⟨.cons (fun y hy => (hmem y hy).1) hpair, fun x hx => ?_, htrans _ _ _ (hturn task s) hlast⟩
      rcases List.mem_cons.1 hx with rfl | hx
      · exact ⟨hrefl s, hlast⟩
      · exact ⟨htrans _ _ _ (hturn task s) (hmem x hx).1, (hmem x hx).2⟩
  have hgenerations : ∀ (count : Nat) (s : Scheduler σ τ),
      (pollsOfGenerations turn count s).Pairwise (fun x y => R (x.after turn) y.before) ∧
        (∀ x ∈ pollsOfGenerations turn count s,
          R s x.before ∧ R (x.after turn) ((generations turn count).run s).2) ∧
        R s ((generations turn count).run s).2 := by
    intro count
    induction count with
    | zero => exact fun s => ⟨.nil, by simp [pollsOfGenerations], hrefl s⟩
    | succ count ih =>
      intro s
      by_cases hnil : s.spawned = []
      · rw [(generations_empty hnil).1, (generations_empty hnil).2]
        exact ⟨.nil, by simp, htake s⟩
      · obtain ⟨hrun, hpolls⟩ := generations_cons turn count hnil
        obtain ⟨hpair, hmem, hlast⟩ := hlist s.spawned { s with spawned := [] }
        obtain ⟨hpair', hmem', hlast'⟩ := ih ((takeTurns turn s.spawned).run { s with spawned := [] }).2
        rw [hrun, hpolls]
        refine ⟨List.pairwise_append.2 ⟨hpair, hpair', fun x hx y hy => ?_⟩, fun x hx => ?_, ?_⟩
        · exact htrans _ _ _ (hmem x hx).2 (hmem' y hy).1
        · rcases List.mem_append.1 hx with hx | hx
          · exact ⟨htrans _ _ _ (htake s) (hmem x hx).1, htrans _ _ _ (hmem x hx).2 hlast'⟩
          · exact ⟨htrans _ _ _ (htake s) (htrans _ _ _ hlast (hmem' x hx).1), (hmem' x hx).2⟩
        · exact htrans _ _ _ (htake s) (htrans _ _ _ hlast hlast')
  obtain ⟨hpair, hmem, hlast⟩ := hlist s.tasks s
  obtain ⟨hpair', hmem', hlast'⟩ :=
    hgenerations (s.generationBound rank) ((takeTurns turn s.tasks).run s).2
  refine ⟨List.pairwise_append.2 ⟨hpair, hpair', fun x hx y hy => htrans _ _ _ (hmem x hx).2 (hmem' y hy).1⟩,
    _, fun x hx => ?_, htrans _ _ _ hlast hlast', tick_eq s⟩
  rcases List.mem_append.1 hx with hx | hx
  · exact ⟨(hmem x hx).1, htrans _ _ _ (hmem x hx).2 hlast'⟩
  · exact ⟨htrans _ _ _ hlast (hmem' x hx).1, (hmem' x hx).2⟩

/-! ### The rule for a frame -/

section Rule

/-- Every task spawns tasks of lower ranks only. -/
def Descending (turn : τ → SchedulerM σ τ (Option τ)) (rank : τ → Nat) : Prop :=
  ∀ task s, ∃ new, ((turn task).run s).2.spawned = s.spawned ++ new ∧ ∀ t ∈ new, rank t < rank task

variable {I : List (Poll σ τ) → List τ → Scheduler σ τ → Prop}

theorem takeTurns_rule
    (hstep : ∀ done task rest s, I done (task :: (rest ++ s.spawned)) s →
      I (done ++ [⟨task, s⟩]) (rest ++ ((turn task).run s).2.spawned) ((turn task).run s).2)
    (tasks : List τ) (done : List (Poll σ τ)) (s : Scheduler σ τ) (h : I done (tasks ++ s.spawned) s) :
    I (done ++ pollsOf turn tasks s) ((takeTurns turn tasks).run s).2.spawned
      ((takeTurns turn tasks).run s).2 := by
  induction tasks generalizing done s with
  | nil =>
    rw [pollsOf, List.append_nil]
    exact h
  | cons task rest ih =>
    have := ih (done ++ [⟨task, s⟩]) ((turn task).run s).2 (hstep done task rest s h)
    rw [takeTurns_cons, pollsOf]
    rwa [List.append_assoc] at this

theorem takeTurns_spawned (hrank : Descending turn rank) {bound : Nat} (tasks : List τ)
    (htasks : ∀ t ∈ tasks, rank t ≤ bound) (s : Scheduler σ τ) :
    ∃ new, ((takeTurns turn tasks).run s).2.spawned = s.spawned ++ new ∧ ∀ t ∈ new, rank t < bound := by
  induction tasks generalizing s with
  | nil => exact ⟨[], (List.append_nil _).symm, by simp⟩
  | cons task rest ih =>
    obtain ⟨new, hnew, hlt⟩ := hrank task s
    obtain ⟨more, hmore, hlt'⟩ := ih (fun t ht => htasks t (List.mem_cons_of_mem task ht)) ((turn task).run s).2
    refine ⟨new ++ more, ?_, fun t ht => ?_⟩
    · rw [takeTurns_cons, hmore, hnew, List.append_assoc]
    · rcases List.mem_append.1 ht with ht | ht
      · exact Nat.lt_of_lt_of_le (hlt t ht) (htasks task List.mem_cons_self)
      · exact hlt' t ht

theorem generations_rule (hrank : Descending turn rank)
    (hstep : ∀ done task rest s, I done (task :: (rest ++ s.spawned)) s →
      I (done ++ [⟨task, s⟩]) (rest ++ ((turn task).run s).2.spawned) ((turn task).run s).2)
    (htake : ∀ done s, I done s.spawned s → I done s.spawned { s with spawned := [] })
    (count : Nat) (done : List (Poll σ τ)) (s : Scheduler σ τ) (hspawned : ∀ t ∈ s.spawned, rank t < count)
    (h : I done s.spawned s) :
    I (done ++ pollsOfGenerations turn count s) [] ((generations turn count).run s).2 ∧
      ((generations turn count).run s).2.spawned = [] := by
  induction count generalizing done s with
  | zero =>
    have hnil : s.spawned = [] := List.eq_nil_iff_forall_not_mem.2 fun t ht => Nat.not_lt_zero _ (hspawned t ht)
    rw [pollsOfGenerations, List.append_nil]
    exact ⟨hnil ▸ h, hnil⟩
  | succ count ih =>
    by_cases hnil : s.spawned = []
    · rw [(generations_empty hnil).1, (generations_empty hnil).2, List.append_nil]
      have := htake done s h
      exact ⟨hnil ▸ this, rfl⟩
    · obtain ⟨hrun, hpolls⟩ := generations_cons turn count hnil
      obtain ⟨new, hnew, hlt⟩ := takeTurns_spawned hrank s.spawned
        (fun t ht => Nat.le_of_lt_succ (hspawned t ht)) { s with spawned := [] }
      have hturns := takeTurns_rule hstep s.spawned done { s with spawned := [] }
        (by simpa using htake done s h)
      have := ih _ _ (by simpa [hnew] using hlt) hturns
      rw [hrun, hpolls, ← List.append_assoc]
      exact this

theorem rank_lt_generationBound (rank : τ → Nat) (s : Scheduler σ τ) :
    ∀ t ∈ s.tasks ++ s.spawned, rank t < s.generationBound rank := by
  have hfold : ∀ (ranks : List Nat) (start : Nat),
      start ≤ ranks.foldl max start ∧ ∀ r ∈ ranks, r ≤ ranks.foldl max start := by
    intro ranks
    induction ranks with
    | nil => simp
    | cons first rest ih =>
      intro start
      obtain ⟨hstart, hrest⟩ := ih (max start first)
      refine ⟨Nat.le_trans (Nat.le_max_left _ _) hstart, fun r hr => ?_⟩
      rcases List.mem_cons.1 hr with rfl | hr
      · exact Nat.le_trans (Nat.le_max_right _ _) hstart
      · exact hrest r hr
  intro t ht
  exact Nat.lt_succ_of_le ((hfold _ 0).2 _ (List.mem_map_of_mem ht))

/-- A moment of a frame between two turns: the turns that are over, the tasks of the generation that still wait for
theirs, and the state. -/
inductive Round (turn : τ → SchedulerM σ τ (Option τ)) (s : Scheduler σ τ) :
    List (Poll σ τ) → List τ → Scheduler σ τ → Prop
  | start : Round turn s [] s.tasks s
  | turn {done : List (Poll σ τ)} {task : τ} {rest : List τ} {p : Scheduler σ τ}
    (h : Round turn s done (task :: rest) p) : Round turn s (done ++ [⟨task, p⟩]) rest ((turn task).run p).2
  | fresh {done : List (Poll σ τ)} {p : Scheduler σ τ} (h : Round turn s done [] p) (hspawned : p.spawned ≠ []) :
    Round turn s done p.spawned { p with spawned := [] }

/-- What is still to come of a frame at some moment: the turns of the tasks that wait, and some generations. -/
theorem Round.to_come (hrank : Descending turn rank) {done : List (Poll σ τ)} {rest : List τ} {p : Scheduler σ τ}
    (h : Round turn s done rest p) :
    ∃ count, (∀ t ∈ ((takeTurns turn rest).run p).2.spawned, rank t < count) ∧
      s.polls turn rank =
        done ++ (pollsOf turn rest p ++ pollsOfGenerations turn count ((takeTurns turn rest).run p).2) ∧
      ((generations turn (s.generationBound rank)).run ((takeTurns turn s.tasks).run s).2).2 =
        ((generations turn count).run ((takeTurns turn rest).run p).2).2 := by
  induction h with
  | start =>
    have hbound := rank_lt_generationBound rank s
    obtain ⟨new, hnew, hlt⟩ := takeTurns_spawned hrank s.tasks
      (fun t ht => Nat.le_of_lt (hbound t (List.mem_append_left _ ht))) s
    refine ⟨_, ?_, rfl, rfl⟩
    rw [hnew]
    exact fun t ht => (List.mem_append.1 ht).elim (fun ht => hbound t (List.mem_append_right _ ht)) (hlt t)
  | turn _ ih =>
    obtain ⟨count, hbound, hpolls, hlast⟩ := ih
    refine ⟨count, hbound, ?_, hlast⟩
    rw [hpolls, pollsOf, List.append_assoc]
    rfl
  | @fresh done p _ hspawned ih =>
    obtain ⟨count, hbound, hpolls, hlast⟩ := ih
    cases count with
    | zero =>
      obtain ⟨t, ht⟩ := List.exists_mem_of_ne_nil _ hspawned
      exact absurd (hbound t ht) (Nat.not_lt_zero _)
    | succ count =>
      obtain ⟨hrun, hgenerations⟩ := generations_cons turn count hspawned
      obtain ⟨new, hnew, hlt⟩ := takeTurns_spawned hrank p.spawned
        (fun t ht => Nat.le_of_lt_succ (hbound t ht)) { p with spawned := [] }
      refine ⟨count, ?_, ?_, ?_⟩
      · rw [hnew]
        exact fun t ht => hlt t (by simpa using ht)
      · rw [hpolls, ← hgenerations]
        rfl
      · have hlater := congrArg Prod.snd hrun
        exact hlast.trans hlater

/-- The turn that comes next at some moment of a frame. -/
theorem Round.polls_getElem? (hrank : Descending turn rank) {done : List (Poll σ τ)} {task : τ} {rest : List τ}
    {p : Scheduler σ τ} (h : Round turn s done (task :: rest) p) :
    (s.polls turn rank)[done.length]? = some ⟨task, p⟩ ∧ (s.polls turn rank).take done.length = done := by
  obtain ⟨count, -, hpolls, -⟩ := h.to_come hrank
  rw [hpolls, List.take_left, List.getElem?_append_right (Nat.le_refl _), Nat.sub_self]
  exact ⟨rfl, rfl⟩

/-- The rule for the rest of a frame. A statement about the turns so far, the queue and the state that holds at some
moment and that every turn preserves holds at the end, when the queue is empty. -/
theorem Round.rule (hrank : Descending turn rank)
    (hstep : ∀ done task rest s, I done (task :: (rest ++ s.spawned)) s →
      I (done ++ [⟨task, s⟩]) (rest ++ ((turn task).run s).2.spawned) ((turn task).run s).2)
    (htake : ∀ done s, I done s.spawned s → I done s.spawned { s with spawned := [] })
    {done : List (Poll σ τ)} {rest : List τ} {p : Scheduler σ τ} (h : Round turn s done rest p)
    (hI : I done (rest ++ p.spawned) p) :
    ∃ last : Scheduler σ τ, I (s.polls turn rank) [] last ∧ last.spawned = [] ∧
      ((tick turn rank).run s).2 =
        { last with
          tasks := (s.polls turn rank).filterMap (Poll.kept turn)
          clock := last.clock.tick } := by
  obtain ⟨count, hbound, hpolls, hgenerations⟩ := h.to_come hrank
  have hturns := takeTurns_rule hstep rest done p hI
  obtain ⟨hlast, hnil⟩ := generations_rule hrank hstep htake _ _ _ hbound hturns
  rw [List.append_assoc, ← hpolls, ← hgenerations] at hlast
  rw [← hgenerations] at hnil
  exact ⟨_, hlast, hnil, by rw [← tick_tasks]; exact tick_eq s⟩

/-- The rule for a whole frame. -/
theorem tick_rule (hrank : Descending turn rank)
    (hstep : ∀ done task rest s, I done (task :: (rest ++ s.spawned)) s →
      I (done ++ [⟨task, s⟩]) (rest ++ ((turn task).run s).2.spawned) ((turn task).run s).2)
    (htake : ∀ done s, I done s.spawned s → I done s.spawned { s with spawned := [] })
    (h : I [] (s.tasks ++ s.spawned) s) :
    ∃ last : Scheduler σ τ, I (s.polls turn rank) [] last ∧ last.spawned = [] ∧
      ((tick turn rank).run s).2 =
        { last with
          tasks := (s.polls turn rank).filterMap (Poll.kept turn)
          clock := last.clock.tick } :=
  Round.start.rule hrank hstep htake h

end Rule

end Scheduler

end Barrage
