import Barrage.Proofs.Machine.Containment
import Barrage.Proofs.Machine.TimedTurns
import Mathlib.Logic.Function.Iterate

/-!
# Timers over a whole run

The task that advances the timers is spawned before the pattern, so that it takes the first turn in every frame: it
keeps that place, since tasks that are left keep their order and those that are spawned go to the end. In the first
frame it only begins to wait, and no phase was entered before. In every later frame its wait for one frame is over, it
advances the timers once, and waits again. So between two frames the timers are one step behind, and from the first
turn of a frame on they are on time.

## Main definitions

* `Machine.deeds`, `Machine.record`: the deeds of a frame and of the first frames of a run, in order
* `Machine.clockIn`: the task that advances the timers, before its turn in some frame
* `Machine.Poised`, `Machine.InFrame`: what is known of a run before and during a frame

## Main results

* `Machine.InFrame.tick`: a frame leads to the next one
* `Machine.InFrame.timelyRecord`: over any number of frames, every evaluation finds the timers as it should
-/

namespace Barrage

namespace Machine

/-! ### What is done in a run -/

/-- The deeds of a turn, each with the run just before it. -/
def Poll.deeds (poll : Poll) : List Note := poll.task.notes poll.before

/-- The deeds of a frame in their order. -/
def deeds (m : Machine) : List Note := m.polls.flatMap Poll.deeds

/-- The deeds of the first frames of a run that nobody acts on from outside. -/
def record (m : Machine) (frames : Nat) : List Note := (List.range frames).flatMap fun n => (tick^[n] m).deeds

theorem record_succ (m : Machine) (n : Nat) : m.record (n + 1) = m.record n ++ (tick^[n] m).deeds := by
  rw [record, List.range_succ, List.flatMap_append, List.flatMap_singleton]
  rfl

/-! ### The task that advances the timers -/

/-- The task that advances the timers, before its turn in some frame. -/
def clockIn (frame : Nat) : Activity := .andThen (.wait (.frames (1 - frame) ⟨[0]⟩)) (.advanceTimers ⟨[0]⟩)

variable {pace : Pace} {frame : Nat} {past : List Note} {p m : Machine}

/-- A run before the timers are advanced in a frame: they are one frame behind. The tasks that were spawned are
those of the queue and told of there. -/
structure Poised (pace : Pace) (frame : Nat) (past : List Note) (p : Machine) : Prop where
  paced : Paced pace frame { p with spawned := [] }
  stand : ∀ start, latestEntry past = some start →
    start < frame ∧ p.shared.hosts.Stand pace.frameTime (frame - 1 - start)
  timely : TimelyRecord pace past

theorem isCancelled_first (h : p.sources.states[0]? = some .live) :
    CancelToken.isCancelled ⟨[0]⟩ p.sources = false := by
  simp [CancelToken.isCancelled, Sources.isCancelled, h]

/-- A watched computation of which the result, the record and the run after it are known. -/
theorem run_then_watched {α β : Type} {x : Watched α} {f : α → Watched β} {a : α} {notes more : List Note}
    {q : Machine} (h : (x.run notes).run p = ((a, more), q)) :
    ((x >>= f).run notes).run p = ((f a).run more).run q := by
  change ((f ((x.run notes).run p).1.1).run ((x.run notes).run p).1.2).run ((x.run notes).run p).2 = _
  rw [h]

/-- A wait under a live token takes part in the frame. -/
theorem run_wait_live (pause : Wait Callable) (h : pause.token.isCancelled p.sources = false) (notes : List Note) :
    ((pause.step : Step Watched).run notes).run p =
      ((do return (← Wait.liveTurn Callable.holds pause).map .wait : Step Watched).run notes).run p := by
  rw [Wait.step_eq]
  change ((if pause.token.isCancelled p.sources then pure Turn.cancelled else _ : Step Watched).run notes).run p = _
  rw [if_neg (by simp [h])]

theorem clockIn_succ (n : Nat) : clockIn (n + 1) = .andThen (.wait (.frames 0 ⟨[0]⟩)) (.advanceTimers ⟨[0]⟩) := by
  rw [clockIn, Nat.sub_eq_zero_of_le (Nat.le_add_left 1 n)]

/-- The turn of the task that advances the timers: it does so once in every frame but the first one. -/
theorem watch_clockIn (hlive : p.sources.states[0]? = some .live) (frame : Nat) :
    Watched.watch (clockIn frame).turn p = ((.waiting (clockIn (frame + 1)), []),
      if frame = 0 then p
      else { p with shared := { p.shared with hosts := p.shared.hosts.advance p.clock.frameTime } }) := by
  have hone : ∀ q : Machine, q.sources = p.sources →
      (((Wait.frames 1 ⟨[0]⟩).step : Step Watched).run []).run q = ((.waiting (.wait (.frames 0 ⟨[0]⟩)), []), q) :=
    fun q hq => run_wait_live (.frames 1 ⟨[0]⟩) (hq ▸ isCancelled_first hlive) []
  rw [Watched.watch, clockIn_succ]
  cases frame with
  | zero =>
    rw [clockIn, Activity.turn, Activity.turn, run_then_watched (hone p rfl)]
    rfl
  | succ n =>
    have hzero : (((Wait.frames 0 ⟨[0]⟩).step : Step Watched).run []).run p = ((.finished, []), p) :=
      run_wait_live (.frames 0 ⟨[0]⟩) (isCancelled_first hlive) []
    have hpassed := hone { p with shared := { p.shared with hosts := p.shared.hosts.advance p.clock.frameTime } } rfl
    rw [clockIn_succ, Activity.turn, Activity.turn, run_then_watched hzero, if_neg (Nat.succ_ne_zero n)]
    exact (run_then_watched rfl).trans ((run_then_watched hpassed).trans rfl)

/-! ### Frames -/

/-- A turn on the watched stage is the turn itself. -/
theorem step_eq_watch (a : Activity) (p : Machine) :
    a.step p = ((Watched.watch a.turn p).1.1, (Watched.watch a.turn p).2) := by
  obtain ⟨hresult, hrun, -, -⟩ := a.under_none.shows.watch (p := p) trivial
  rw [hresult, hrun]
  rfl

/-- A moment of a frame, with the turns that are over and the tasks that wait for theirs. The first turn is that of the
task that advances the timers, and all other tasks come of a pattern. -/
inductive InFrame (pace : Pace) (frame : Nat) (past : List Note) : List Poll → List Activity → Machine → Prop
  | before {rest : List Activity} {p : Machine} (h : p.Poised pace frame past) (hrest : ∀ task ∈ rest, task.Scripted) :
    InFrame pace frame past [] (clockIn frame :: rest) p
  | after {clock : Poll} {others : List Poll} {queue : List Activity} {p : Machine}
    (hclock : clock.kept = some (clockIn (frame + 1)))
    (hothers : ∀ poll ∈ others, ∀ left, poll.kept = some left → left.Scripted)
    (hqueue : ∀ task ∈ queue, task.Scripted)
    (h : p.OnTime pace frame (past ++ (clock :: others).flatMap Poll.deeds)) :
    InFrame pace frame past (clock :: others) queue p

/-- With the first turn of a frame the timers are on time. -/
theorem Poised.advance (h : p.Poised pace frame past) (hspawned : ∀ task ∈ p.spawned, task.Scripted) :
    (clockIn frame).notes p = [] ∧ ((clockIn frame).step p).1.left = some (clockIn (frame + 1)) ∧
      OnTime pace frame past ((clockIn frame).step p).2 ∧ ((clockIn frame).step p).2.spawned = p.spawned := by
  have hpaced : p.Paced pace frame :=
    ⟨h.paced.clock, h.paced.restarts, h.paced.live, h.paced.shifter, h.paced.names, hspawned⟩
  have hwatch := watch_clockIn hpaced.live frame
  refine ⟨by rw [Activity.notes, hwatch], by rw [step_eq_watch, hwatch]; rfl, ?_⟩
  rw [step_eq_watch, hwatch]
  cases frame with
  | zero =>
    rw [if_pos rfl]
    exact ⟨⟨hpaced, fun start hstart => absurd (h.stand start hstart).1 (Nat.not_lt_zero _), h.timely⟩, rfl⟩
  | succ n =>
    have hframeTime : p.clock.frameTime = pace.frameTime := congrArg FrameClock.frameTime hpaced.clock
    rw [if_neg (Nat.succ_ne_zero n), hframeTime]
    refine ⟨⟨⟨hpaced.clock, hpaced.restarts, hpaced.live, hpaced.shifter, ?_, hspawned⟩, fun start hstart => ?_,
      h.timely⟩, rfl⟩
    · exact (Hosts.timerNames_advance _ _).trans hpaced.names
    · obtain ⟨hlt, hstand⟩ := h.stand start hstart
      have hage : n + 1 - start = n + 1 - 1 - start + 1 := by omega
      rw [hage]
      exact ⟨Nat.le_of_lt hlt, hstand.advance⟩

theorem leaves_left {A : Activity → Prop} {turn : Turn Activity} {rest : Activity} (h : turn.Leaves A)
    (hleft : turn.left = some rest) : A rest := by
  cases turn with
  | done answer => cases hleft
  | waiting other => exact Option.some.inj hleft ▸ h

/-- Each turn of a frame leads from such a moment to the next one. -/
theorem InFrame.turn {done : List Poll} {task : Activity} {rest : List Activity}
    (h : InFrame pace frame past done (task :: (rest ++ p.spawned)) p) :
    InFrame pace frame past (done ++ [⟨task, p⟩]) (rest ++ (task.step p).2.spawned) (task.step p).2 := by
  cases h with
  | before h hrest =>
    obtain ⟨hnotes, hleft, honTime, hspawned⟩ := h.advance (List.forall_mem_append.1 hrest).2
    refine .after ((Poll.kept_eq _).trans hleft) (List.forall_mem_nil _) (hspawned ▸ hrest) ?_
    rw [List.flatMap_singleton, Poll.deeds, hnotes, List.append_nil]
    exact honTime
  | @after clock others _ _ hclock hothers hqueue h =>
    obtain ⟨htask, hrest⟩ := List.forall_mem_cons.1 hqueue
    obtain ⟨honTime, hleft⟩ := Activity.keeps_turn task htask [] p (by rwa [List.append_nil])
    rw [List.cons_append]
    refine .after hclock (List.forall_mem_append.2 ⟨hothers, List.forall_mem_singleton.2 fun left hkept => ?_⟩)
      (List.forall_mem_append.2 ⟨(List.forall_mem_append.1 hrest).1, ?_⟩) ?_
    · rw [Poll.kept_eq, step_eq_watch] at hkept
      exact leaves_left hleft hkept
    · rw [step_eq_watch]
      exact honTime.spawned
    · rw [step_eq_watch, ← List.cons_append, List.flatMap_append, List.flatMap_singleton, ← List.append_assoc]
      exact honTime

/-- A frame leads to the next one, and its deeds are put to the record. -/
theorem InFrame.tick (h : InFrame pace frame past [] (m.tasks ++ m.spawned) m) :
    InFrame pace (frame + 1) (past ++ m.deeds) [] (m.tick.tasks ++ m.tick.spawned) m.tick := by
  have hstep : ∀ done task rest (p : Machine), InFrame pace frame past done (task :: (rest ++ p.spawned)) p →
      InFrame pace frame past (done ++ [⟨task, p⟩]) (rest ++ ((Activity.taskTurn task).run p).2.spawned)
        ((Activity.taskTurn task).run p).2 := fun done task rest p h => by
    rw [Activity.run_taskTurn]
    exact h.turn
  have htake : ∀ done (p : Machine), InFrame pace frame past done p.spawned p →
      InFrame pace frame past done p.spawned { p with spawned := [] } := by
    intro done p h
    generalize p.spawned = queue at h ⊢
    cases h with
    | before h hrest => exact .before ⟨h.paced, h.stand, h.timely⟩ hrest
    | after hclock hothers hqueue h =>
      refine .after hclock hothers hqueue ⟨⟨h.clock, h.restarts, h.live, h.shifter, h.names, ?_⟩, h.stand, h.timely⟩
      exact List.forall_mem_nil _
  obtain ⟨last, hlast, hspawned, htick⟩ :=
    Scheduler.tick_rule (s := m) (I := InFrame pace frame past) Activity.descending hstep htake h
  rw [Machine.tick, htick, deeds, polls]
  generalize Scheduler.polls Activity.taskTurn Activity.rank m = polls at hlast ⊢
  cases hlast with
  | @after clock others _ _ hclock hothers _ h =>
    dsimp only
    rw [hspawned, List.append_nil, List.filterMap_cons_some hclock]
    refine .before ⟨⟨?_, h.restarts, h.live, h.shifter, h.names, List.forall_mem_nil _⟩, fun start hstart => ?_,
      h.timely⟩ fun task htask => ?_
    · exact congrArg FrameClock.tick h.clock
    · obtain ⟨hle, hstand⟩ := h.stand start hstart
      exact ⟨Nat.lt_succ_of_le hle, hstand⟩
    · obtain ⟨poll, hpoll, hkept⟩ := List.mem_filterMap.1 htask
      exact hothers poll hpoll task hkept

/-- What is known of a run before its first frame is known before each of its frames. -/
theorem InFrame.iterate (h : InFrame pace 0 [] [] (m.tasks ++ m.spawned) m) (n : Nat) :
    InFrame pace n (m.record n) [] ((Machine.tick^[n] m).tasks ++ (Machine.tick^[n] m).spawned)
      (Machine.tick^[n] m) := by
  induction n with
  | zero => exact h
  | succ n ih =>
    rw [record_succ, Function.iterate_succ_apply']
    exact ih.tick

theorem InFrame.poised (h : InFrame pace frame past [] (m.tasks ++ m.spawned) m) : m.Poised pace frame past := by
  generalize m.tasks ++ m.spawned = queue at h
  cases h with
  | before h _ => exact h

/-- Over any number of frames, every evaluation finds the timers as it should. -/
theorem InFrame.timelyRecord (h : InFrame pace 0 [] [] (m.tasks ++ m.spawned) m) (frames : Nat) :
    TimelyRecord pace (m.record frames) :=
  (h.iterate frames).poised.timely

/-- Frames until something is found are some number of frames. -/
theorem exists_runUntil_eq {σ τ α : Type} (step : Scheduler σ τ → Scheduler σ τ) (find? : Scheduler σ τ → Option α)
    (frames : Nat) (s : Scheduler σ τ) : ∃ n, (Scheduler.runUntil step find? frames s).2 = step^[n] s := by
  induction frames generalizing s with
  | zero => exact ⟨0, rfl⟩
  | succ frames ih =>
    rw [Scheduler.runUntil]
    split
    · exact ⟨1, rfl⟩
    · obtain ⟨n, hn⟩ := ih (step s)
      exact ⟨n + 1, hn⟩

/-- No timer is made or lost in a run that goes to its end. -/
theorem InFrame.timerNames_runToEnd (h : InFrame pace 0 [] [] (m.tasks ++ m.spawned) m) (frames : Nat) :
    (m.runToEnd frames).2.shared.hosts.timerNames = pace.names := by
  obtain ⟨n, hn⟩ := exists_runUntil_eq Machine.tick (·.shared.outcome) frames m
  have hlast : (m.runToEnd frames).2 = Machine.tick^[n] m := by
    rw [← hn, runToEnd]
    split <;> rename_i heq <;> rw [heq]
  rw [hlast]
  exact (h.iterate n).poised.paced.names

end Machine

end Barrage
