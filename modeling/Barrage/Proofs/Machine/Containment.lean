import Barrage.Proofs.Machine.Frames
import Barrage.Proofs.Machine.PhaseRuns

/-!
# Cancellation is contained

Whoever cancels a token wants everything that was started under it to be over. Tasks that were detached know
nothing of the tree that they come from, they may take turns after it is gone, and what is left of a tree may
be looked at only frames later. Yet none of them does anything any more: whatever comes of a tree, in whatever
order tasks take turns and whatever others do meanwhile, looks at its token before each of its deeds.

A phase puts its children under a token of its own, with a source that is cancelled when the phase is settled.
So a phase that is over has no children that are still at work, and its time cannot run out any more.

## Main definitions

* `Activity.Descends`: the activities that some others turn into or spawn, in whatever runs
* `Activity.Silent`: a turn without deeds, in which nothing is emitted

## Main results

* `cancelled_trees_are_silent`: a cancellation stops all that descends from a tree, and the end of a phase all
  that descends from its children
-/

namespace Barrage

namespace Activity

/-- The deeds of a turn, each with the run just before it. -/
def notes (a : Activity) (p : Machine) : List Note := (Watched.watch a.turn p).1.2

/-- A turn without deeds, in which nothing is emitted. -/
structure Silent (a : Activity) (p : Machine) : Prop where
  notes : a.notes p = []
  emitted : Machine.emitted (a.step p).2 = p.emitted

/-- The activities that come of some others: what is left of them after a turn, and what they spawn. Their
turns may find any runs, so that the order of turns and what others do does not matter. -/
inductive Descends (origin : Activity → Prop) : Activity → Prop
  | origin {a : Activity} (h : origin a) : Descends origin a
  | left {a b : Activity} (p : Machine) (h : Descends origin a) (hleft : (a.step p).1 = .waiting b) :
    Descends origin b
  | spawned {a b : Activity} (p : Machine) (h : Descends origin a)
    (hb : b ∈ (a.step p).2.spawned.drop p.spawned.length) : Descends origin b

end Activity

/-- What a turn of some computation leaves or spawns. -/
inductive Comes (y : Step (World.M Activity)) : Activity → Prop
  | left {a : Activity} (p : Machine) (h : (y.run p).1 = .waiting a) : Comes y a
  | spawned {a : Activity} (p : Machine) (h : a ∈ (y.run p).2.spawned.drop p.spawned.length) : Comes y a

/-- A tree as a task: detached, or as the tree that a run is about. -/
def Node.IsTask (node : Node Callable) (T : CancelToken) (a : Activity) : Prop :=
  a = .start node T ∨ a = Machine.rootTask node T

namespace PhaseRun

/-- A phase that is entered in a run. -/
abbrev enterIn (phase : Phase Callable) (index : Nat) (token : CancelToken) (p : Machine) : PhaseRun × Machine :=
  (PhaseRun.open phase index token).run p

/-- A phase that is settled in a run, given what its children answered: either its end is reported, or it is
left with the error that they failed with. -/
abbrev settleIn (run : PhaseRun) (answer : Except MachineError Unit) (p : Machine) :
    Except MachineError Unit × Machine :=
  (run.conclude answer).run p

/-- What a phase starts: its children, and the task that watches its time. -/
def Starts (run : PhaseRun) (a : Activity) : Prop :=
  Comes (Node.startInTurn run.phase.children run.joint) a ∨ ∃ frames, a = run.timer frames

end PhaseRun

variable {T : CancelToken} {origin : Activity → Prop} {a : Activity} {p q : Machine}

/-- What an advance of a run spawns is of the kind that the advance tells. -/
theorem Machine.Advances.of_mem_spawned {S : Activity → Prop} (h : p.Advances S q) {b : Activity}
    (hb : b ∈ q.spawned.drop p.spawned.length) : S b := by
  obtain ⟨new, hq, hnew⟩ := h.spawned
  rw [hq, List.drop_left] at hb
  exact hnew b hb

namespace Activity

/-! ### One turn under a token -/

theorem Under.shows (h : a.Under T) :
    ShowsTurn T a.rank (fun _ => True) a.turn a.turn :=
  shows_turn a ⟨h, Nat.le_refl _⟩

/-- The deeds of a turn are done while the token is live. -/
theorem Under.notes_live (h : a.Under T) (p : Machine) : ∀ note ∈ a.notes p, note.Live T :=
  fun note hnote => ((h.shows.watch (p := p) trivial).2.2.1 note hnote).1

/-- Under a cancelled token nothing is done. -/
theorem Under.silent (h : a.Under T) (hT : T.isCancelled p.sources) : a.Silent p := by
  obtain ⟨-, -, hnotes, hemitted⟩ := h.shows.watch (p := p) trivial
  have hnil : a.notes p = [] := by
    refine List.eq_nil_iff_forall_not_mem.2 fun note hnote => ?_
    obtain ⟨hlive, hages⟩ := hnotes note hnote
    exact hlive (CancelToken.isCancelled_of_ages hages hT)
  refine ⟨hnil, hemitted.trans ?_⟩
  change p.emitted ++ emissions (a.notes p) = p.emitted
  rw [hnil, emissions, List.filterMap_nil, List.append_nil]

/-- Whatever descends from activities under a token is under it. -/
theorem Descends.under (h : a.Descends origin) (horigin : ∀ b, origin b → b.Under T) : a.Under T := by
  induction h with
  | origin h => exact horigin _ h
  | left p _ hleft ih =>
    have hturn := (ih.shows.advances (p := p) trivial).2
    rw [hleft] at hturn
    exact hturn.1
  | spawned p _ hb ih => exact ((ih.shows.advances (p := p) trivial).1.of_mem_spawned hb).1

end Activity

/-! ### Trees and phases -/

theorem Node.IsTask.under {node : Node Callable} (h : node.IsTask T a) : a.Under T := by
  have hstart : (Activity.start node T).Under T := .start T.includes_refl
  rcases h with rfl | rfl
  · exact hstart
  · exact .andThen hstart trivial

theorem PhaseRun.Starts.under {run : PhaseRun} (h : run.Starts a) : a.Under run.joint := by
  rcases h with h | ⟨frames, rfl⟩
  · have hshows : ShowsTurn run.joint (Node.listHeight run.phase.children) (fun _ => True)
        (Node.startInTurn run.phase.children run.joint) (Node.startInTurn run.phase.children run.joint) :=
      shows_startInTurn _ run.joint run.joint.includes_refl (Nat.le_refl _)
    cases h with
    | left p hleft =>
      have hturn := (hshows.advances (p := p) trivial).2
      rw [hleft] at hturn
      exact hturn.1
    | spawned p hb => exact ((hshows.advances (p := p) trivial).1.of_mem_spawned hb).1
  · exact .timer run.joint.includes_refl

/-- The token of the children of a phase is cancelled once the phase was settled. -/
theorem PhaseRun.joint_isCancelled {phase : Phase Callable} {index : Nat} {token : CancelToken} {p q r : Machine}
    (answer : Except MachineError Unit) (hq : (enterIn phase index token p).2.Later q)
    (hr : ((enterIn phase index token p).1.settleIn answer q).2.Later r) :
    (enterIn phase index token p).1.joint.isCancelled r.sources := by
  have hsource := Nat.lt_of_lt_of_le (source_lt_of_open phase index token p) hq.ages.1
  have hcancelled := hr.ages.2 _ (isCancelled_conclude answer hsource)
  exact CancelToken.isCancelled_iff.2 ⟨_, mem_joint.2 (.inr rfl), hcancelled⟩

/-! ### The tasks of a run -/

/-- What is left of an activity or spawned by it descends from whatever it descends from. -/
theorem Activity.Descends.of_step (h : a.Descends origin) (p : Machine) :
    (∀ b, (a.step p).1.left = some b → b.Descends origin) ∧
      ∃ new, (a.step p).2.spawned = p.spawned ++ new ∧ ∀ b ∈ new, b.Descends origin := by
  constructor
  · intro b hb
    refine .left p h ?_
    revert hb
    cases (a.step p).1 with
    | done answer => simp [Turn.left]
    | waiting rest => simp [Turn.left]
  · obtain ⟨new, hnew, -⟩ := (a.step_advances p).spawned
    refine ⟨new, hnew, fun b hb => .spawned p h ?_⟩
    rw [hnew, List.drop_left]
    exact hb

/-- If all tasks of a run descend from some activities, then so does every task that takes a turn in a frame, and
every task after it. -/
theorem Machine.descends_tick {m : Machine} (h : ∀ t ∈ m.tasks ++ m.spawned, t.Descends origin) :
    (∀ x ∈ m.polls, x.task.Descends origin) ∧ ∀ t ∈ m.tick.tasks ++ m.tick.spawned, t.Descends origin := by
  have hstep : ∀ (done : List Poll) task rest (p : Machine),
      ((∀ x ∈ done, x.task.Descends origin) ∧ ∀ t ∈ task :: (rest ++ p.spawned), t.Descends origin) →
      (∀ x ∈ done ++ [⟨task, p⟩], x.task.Descends origin) ∧
        ∀ t ∈ rest ++ ((Activity.taskTurn task).run p).2.spawned, t.Descends origin := by
    rintro done task rest p ⟨hdone, hqueue⟩
    have htask := hqueue task List.mem_cons_self
    obtain ⟨new, hnew, hspawned⟩ := (htask.of_step p).2
    rw [Activity.run_taskTurn, hnew]
    refine ⟨fun x hx => ?_, fun t ht => ?_⟩
    · rcases List.mem_append.1 hx with hx | hx
      · exact hdone x hx
      · rw [List.mem_singleton.1 hx]
        exact htask
    · rw [← List.append_assoc] at ht
      exact (List.mem_append.1 ht).elim (fun ht => hqueue t (List.mem_cons_of_mem task ht)) (hspawned t)
  obtain ⟨last, ⟨hdone, -⟩, hspawned, htick⟩ := Scheduler.tick_rule (s := m)
    (I := fun done queue _ => (∀ x ∈ done, x.task.Descends origin) ∧ ∀ t ∈ queue, t.Descends origin)
    Activity.descending hstep (fun _ _ h => h) ⟨by simp, h⟩
  refine ⟨hdone, fun t ht => ?_⟩
  rw [tick, htick] at ht
  rcases List.mem_append.1 ht with ht | ht
  · obtain ⟨x, hx, hkept⟩ := List.mem_filterMap.1 ht
    exact ((hdone x hx).of_step x.before).1 t ((Poll.kept_eq x).symm.trans hkept)
  · rw [hspawned] at ht
    cases ht

/-- The same for a whole run. -/
theorem Machine.descends_history {m : Machine} (h : ∀ t ∈ m.tasks ++ m.spawned, t.Descends origin)
    (acts : Nat → List Outside) (dt : Float) (frames : Nat) :
    ∀ x ∈ history acts dt m frames, x.task.Descends origin := by
  have hstates : ∀ n, ∀ t ∈ (states acts dt m n).tasks ++ (states acts dt m n).spawned, t.Descends origin := by
    intro n
    induction n with
    | zero => exact h
    | succ n ih =>
      rw [states, (acted_keeps _ _).2.1, (acted_keeps _ _).2.2.1]
      exact (descends_tick ih).2
  intro x hx
  obtain ⟨n, -, hx⟩ := List.mem_flatMap.1 hx
  exact (descends_tick (hstates n)).1 x hx

/-- A cancellation is contained.

Turns are looked at through the record of their deeds, which is complete: the watched turn is the turn itself,
and all that it emits is in its record.

A tree that is a task under a token: every deed of every task that descends from it is done while the token is
live, and at every moment later than one at which the token is cancelled none of these tasks does anything. In
particular a pattern enters no further phase, and no block of it emits anything.

A phase that was entered and settled, whatever its children answered: at no later moment does anything that
descends from what it started do anything, the task that watches its time included.

The moments are those of runs: in every run, with every schedule of actions from outside, the turns of all tasks
find later and later moments, and if the run began with tasks that descend from a tree, all its tasks do. -/
theorem cancelled_trees_are_silent :
    (∀ (a : Activity) (p : Machine), (Watched.watch a.turn p).1.1 = (a.step p).1 ∧
      (Watched.watch a.turn p).2 = (a.step p).2 ∧
      Machine.emitted (a.step p).2 = p.emitted ++ emissions (a.notes p)) ∧
    (∀ (node : Node Callable) (T : CancelToken) (a : Activity), a.Descends (node.IsTask T) → ∀ p : Machine,
      (∀ note ∈ a.notes p, ¬ T.isCancelled note.before.sources) ∧
      ∀ q : Machine, T.isCancelled q.sources → q.Later p → a.Silent p) ∧
    (∀ (phase : Phase Callable) (index : Nat) (token : CancelToken) (answer : Except MachineError Unit)
      (p q r : Machine) (a : Activity),
      let (run, entered) := PhaseRun.enterIn phase index token p
      entered.Later q → (run.settleIn answer q).2.Later r → a.Descends run.Starts → a.Silent r) ∧
    (∀ (acts : Nat → List Outside) (dt : Float) (m : Machine) (frames : Nat) (origin : Activity → Prop),
      ((Machine.history acts dt m frames).Pairwise fun x y => x.after.Later y.before) ∧
      ((∀ t ∈ m.tasks ++ m.spawned, t.Descends origin) →
        ∀ x ∈ Machine.history acts dt m frames, x.task.Descends origin)) := by
  refine ⟨fun a p => ?_, fun node T a ha p => ?_, fun phase index token answer p q r a hq hr ha => ?_, ?_⟩
  · obtain ⟨hresult, hrun, -, hemitted⟩ := a.under_none.shows.watch (p := p) trivial
    exact ⟨hresult, hrun, hemitted⟩
  · have hunder : a.Under T := ha.under fun b hb => hb.under
    exact ⟨hunder.notes_live p, fun q hT hlater => hunder.silent (CancelToken.isCancelled_of_ages hlater.ages hT)⟩
  · have hunder := ha.under fun b hb => hb.under
    exact hunder.silent (PhaseRun.joint_isCancelled answer hq hr)
  · exact fun acts dt m frames origin =>
      ⟨Machine.history_pairwise acts dt m frames, fun h => Machine.descends_history h acts dt frames⟩

/-- A run with one source, which is in some state. -/
def soleSource (state : SourceState) : Machine :=
  { clock := ⟨0.1, 0⟩, sources := ⟨[state]⟩, shared := { hosts := {}, executor := { entity := ⟨0, "boss"⟩ } } }

/-- A tree that cuts the running phase does so under a live token, and does not after the cancellation. -/
theorem cut_after_cancellation :
    ((Activity.start (.leaf .shiftPhase) ⟨[0]⟩).notes (soleSource .live)).length = 1 ∧
      (Activity.start (.leaf .shiftPhase) ⟨[0]⟩).Silent (soleSource .cancelled) :=
  ⟨rfl, (cancelled_trees_are_silent.2.1 (.leaf .shiftPhase) ⟨[0]⟩ _ (.origin (.inl rfl)) _).2
    (soleSource .cancelled) rfl .refl⟩

end Barrage
