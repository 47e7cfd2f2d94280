import Barrage.Proofs.Machine.Frames
import Barrage.Proofs.Machine.PhaseRuns
import Barrage.Proofs.Machine.PlainTurns
import Barrage.Proofs.Pattern.Places

/-!
# Timers within a turn

Timers belong to the phase that was entered last: the entry of a phase sets all of them to zero, in the middle of a
turn, and from then on they are advanced once in every frame. So what an expression reads is told by the frame and
the frame of the latest entry alone. Durations are added one by one, as floats, and nothing is rounded off.

Nothing else may touch the timers. Calls of code leave the host objects alone; a served unit could create timers, and
is left out here. And nothing may end the first source of a run, on which the task depends that advances the timers:
sources are numbered in their order, so that no phase and nothing that is left of one knows it.

## Main definitions

* `elapsedAfter`, `Hosts.Stand`: what timers stand at so many frames after they were set to zero
* `latestEntry`: the frame in which a phase was entered last, by a record of deeds
* `TimelyRecord`: every evaluation of a record finds the timers as the latest entry before it says
* `Machine.OnTime`: what is known of a run in the middle of a frame
* `KeepsTime`: a computation keeps the timers on time, with all that it does

## Main results

* `bides_cancelPhase`, `bides_invoke`: what is done within a frame leaves the timers alone
* `KeepsTime.bind`, `keeps_change`, `keeps_perform`: rules for what is done one after another
-/

namespace Barrage

/-! ### What timers stand at -/

/-- What a timer stands at so many frames after it was set to zero. -/
def elapsedAfter (frameTime : Float) : Nat → Float
  | 0 => 0.0
  | frames + 1 => elapsedAfter frameTime frames + frameTime

namespace Hosts

variable {hosts : Hosts} {frameTime : Float} {frames : Nat}

/-- The names of all timers. -/
def timerNames (hosts : Hosts) : List String := hosts.timers.map Timer.name

/-- All timers run and were set to zero so many frames ago. -/
def Stand (hosts : Hosts) (frameTime : Float) (frames : Nat) : Prop :=
  ∀ t ∈ hosts.timers, t.paused = false ∧ t.elapsed = elapsedAfter frameTime frames

theorem stand_restart (hosts : Hosts) (frameTime : Float) : hosts.restart.Stand frameTime 0 := by
  intro t ht
  obtain ⟨t, -, rfl⟩ := List.mem_map.1 ht
  exact ⟨rfl, rfl⟩

theorem Stand.advance (h : hosts.Stand frameTime frames) : (hosts.advance frameTime).Stand frameTime (frames + 1) := by
  intro t ht
  obtain ⟨t, hmem, rfl⟩ := List.mem_map.1 ht
  obtain ⟨hpaused, helapsed⟩ := h t hmem
  rw [Timer.advance, if_neg (by simp [hpaused])]
  exact ⟨hpaused, congrArg (· + frameTime) helapsed⟩

@[simp] theorem timerNames_restart (hosts : Hosts) : hosts.restart.timerNames = hosts.timerNames := by
  rw [timerNames, restart, List.map_map]
  rfl

@[simp] theorem timerNames_advance (hosts : Hosts) (dt : Float) : (hosts.advance dt).timerNames = hosts.timerNames := by
  rw [timerNames, advance, List.map_map]
  refine List.map_congr_left fun t _ => ?_
  rw [Function.comp_apply, Timer.advance]
  split <;> rfl

end Hosts

/-! ### Records of deeds -/

/-- Whether a deed is the entry of a phase. -/
def Deed.isEntry : Deed → Bool
  | enter _ _ _ => true
  | _ => false

/-- The frame of a note on the entry of a phase. -/
def Note.entry (note : Note) : Option Nat := if note.deed.isEntry then some note.before.clock.frame else none

/-- The frame in which a phase was entered last, if one was entered at all. -/
def latestEntry (record : List Note) : Option Nat := (record.filterMap Note.entry).getLast?

/-- What is the same in all frames of a run: their length, and the names of the timers. -/
structure Pace where
  frameTime : Float
  names : List String

/-- An evaluation finds the timers as the latest entry before it says: each of them was set to zero in that frame, and
the length of a frame was added to it once for each frame since. -/
def Note.Timely (pace : Pace) (earlier : List Note) (note : Note) : Prop :=
  ∀ c start, note.deed = .evaluate c → latestEntry earlier = some start →
    start ≤ note.before.clock.frame ∧ note.before.shared.hosts.timerNames = pace.names ∧
      note.before.shared.hosts.Stand pace.frameTime (note.before.clock.frame - start)

/-- All evaluations of a record find the timers as they should. -/
def TimelyRecord (pace : Pace) (record : List Note) : Prop :=
  ∀ earlier note, earlier ++ [note] <+: record → note.Timely pace earlier

theorem latestEntry_concat (record : List Note) (note : Note) :
    latestEntry (record ++ [note]) = note.entry.or (latestEntry record) := by
  rw [latestEntry, List.filterMap_append, List.getLast?_append]
  cases h : note.entry with
  | none => rw [List.filterMap_cons_none h]; rfl
  | some frame => rw [List.filterMap_cons_some h]; rfl

theorem timelyRecord_nil (pace : Pace) : TimelyRecord pace [] := by
  intro earlier note h
  simp at h

theorem TimelyRecord.concat {pace : Pace} {record : List Note} {note : Note} (h : TimelyRecord pace record)
    (hnote : note.Timely pace record) : TimelyRecord pace (record ++ [note]) := by
  intro earlier other hother
  rcases List.prefix_concat_iff.1 hother with heq | hother
  · obtain ⟨rfl, hlast⟩ := List.append_inj' heq rfl
    rwa [List.singleton_inj.1 hlast]
  · exact h earlier other hother

/-! ### Trees of code -/

/-- All of some expressions are code, and none of them is a served unit. -/
def Coded (expressions : List (ValueType × Callable)) : Prop := ∀ x ∈ expressions, ∃ code, x.2.body = .code code

@[simp] theorem coded_append {xs ys : List (ValueType × Callable)} : Coded (xs ++ ys) ↔ Coded xs ∧ Coded ys :=
  List.forall_mem_append

theorem Coded.node_of_mem {children : List (Node Callable)} (h : Coded (Node.expressionsList children))
    {node : Node Callable} (hnode : node ∈ children) : Coded node.expressions := by
  induction children with
  | nil => cases hnode
  | cons first rest ih =>
    rw [Node.expressionsList, coded_append] at h
    rcases List.mem_cons.1 hnode with rfl | hnode
    · exact h.1
    · exact ih h.2 hnode

/-- What follows is about trees of code, and ends no source but those of phases. -/
def Continuation.Scripted : Continuation → Prop
  | sequence rest _ => Coded (Node.expressionsList rest)
  | spread _ children _ => Coded (Node.expressionsList children)
  | hold _ _ => True
  | settle run => Coded run.phase.expressions ∧ run.source ≠ 0
  | enterPhase run _ => Coded (Phase.expressionsList run.phases)
  | nextPhase run _ => Coded (Phase.expressionsList run.phases)
  | closeBoss _ => True
  | expire source => source ≠ 0
  | advanceTimers _ => False
  | report => True

/-- Activities that come of a pattern of code: any but the one that advances the timers. -/
inductive Activity.Scripted : Activity → Prop
  | start {node : Node Callable} {token : CancelToken} (h : Coded node.expressions) : Scripted (.start node token)
  | frames {left : Nat} {token : CancelToken} : Scripted (.wait (.frames left token))
  | condition {c : Callable} {code : Code} {token : CancelToken} (h : c.body = .code code) :
    Scripted (.wait (.until c token))
  | cancelled {token : CancelToken} : Scripted (.wait (.cancelled token))
  | andThen {first : Activity} {next : Continuation} (hfirst : Scripted first) (hnext : next.Scripted) :
    Scripted (.andThen first next)
  | join {parts : List Activity} (h : ∀ part ∈ parts, Scripted part) : Scripted (.join parts)
  | stuck : Scripted .stuck

/-! ### Runs in the middle of a frame -/

namespace Machine

/-- What is the same throughout a frame. The first source is that of the task that advances the timers. -/
structure Paced (pace : Pace) (frame : Nat) (p : Machine) : Prop where
  clock : p.clock = ⟨pace.frameTime, frame⟩
  restarts : p.shared.services.restartTimers = true
  live : p.sources.states[0]? = some .live
  shifter : p.shared.executor.shifter ≠ some 0
  names : p.shared.hosts.timerNames = pace.names
  spawned : ∀ task ∈ p.spawned, task.Scripted

/-- What is known of a run in the middle of a frame, when the timers were advanced already: what they stand at, and
that they were right whenever an expression was evaluated. -/
structure OnTime (pace : Pace) (frame : Nat) (record : List Note) (p : Machine) : Prop extends p.Paced pace frame where
  stand : ∀ start, latestEntry record = some start →
    start ≤ frame ∧ p.shared.hosts.Stand pace.frameTime (frame - start)
  timely : TimelyRecord pace record

variable {pace : Pace} {frame : Nat} {record : List Note} {p q : Machine}

/-- Whatever leaves the timers alone leaves them on time. -/
theorem OnTime.of_timers (h : p.OnTime pace frame record) (hq : q.Paced pace frame)
    (htimers : q.shared.hosts.timers = p.shared.hosts.timers) : q.OnTime pace frame record where
  toPaced := hq
  stand := by
    unfold Hosts.Stand
    rw [htimers]
    exact h.stand
  timely := h.timely

/-- The next deed may be the evaluation of an expression. -/
theorem OnTime.timely_note (h : p.OnTime pace frame record) (deed : Deed) : Note.Timely pace record ⟨deed, p⟩ := by
  intro c start _ hstart
  obtain ⟨hle, hstand⟩ := h.stand start hstart
  rw [h.clock]
  exact ⟨hle, h.names, hstand⟩

/-- The record goes on with a deed that is no entry. -/
theorem OnTime.note (h : p.OnTime pace frame record) {deed : Deed} (hdeed : deed.isEntry = false) :
    p.OnTime pace frame (record ++ [⟨deed, p⟩]) where
  toPaced := h.toPaced
  stand := by
    have hnone : Note.entry ⟨deed, p⟩ = none := if_neg (by simp [hdeed])
    rw [latestEntry_concat, hnone, Option.none_or]
    exact h.stand
  timely := h.timely.concat (h.timely_note deed)

end Machine

/-! ### Computations that leave the timers alone -/

section Rules

variable {α β : Type} {pace : Pace} {frame : Nat} {past : List Note} {Q : α → Prop} {R : β → Prop}

/-- The plain computation leaves the timers alone, and its result has the property `Q`. -/
def Bides (pace : Pace) (frame : Nat) (Q : α → Prop) (y : World.M Activity α) : Prop :=
  ∀ p : Machine, p.Paced pace frame → Machine.Paced pace frame (y.run p).2 ∧
    (y.run p).2.shared.hosts.timers = p.shared.hosts.timers ∧ Q (y.run p).1

theorem bides_pure {a : α} (h : Q a) : Bides pace frame Q (pure a) := fun _ hp => ⟨hp, rfl, h⟩

theorem Bides.bind {y : World.M Activity α} {g : α → World.M Activity β} (hy : Bides pace frame Q y)
    (hg : ∀ a, Q a → Bides pace frame R (g a)) : Bides pace frame R (y >>= g) := by
  intro p hp
  obtain ⟨hpaced, htimers, hq⟩ := hy p hp
  obtain ⟨hpaced', htimers', hr⟩ := hg _ hq (y.run p).2 hpaced
  exact ⟨hpaced', htimers'.trans htimers, hr⟩

/-- A part whose result does not matter. -/
theorem Bides.andThen {y : World.M Activity α} {g : α → World.M Activity β}
    (hy : Bides pace frame (fun _ => True) y) (hg : ∀ a, Bides pace frame R (g a)) : Bides pace frame R (y >>= g) :=
  hy.bind fun a _ => hg a

/-- Computations that only look at the run. -/
theorem bides_look {y : World.M Activity α} (h : ∀ p, (y.run p).2 = p) : Bides pace frame (fun _ => True) y :=
  fun p hp => by
    rw [h p]
    exact ⟨hp, rfl, trivial⟩

theorem bides_get : Bides pace frame (fun _ => True) (get : World.M Activity Machine) := bides_look fun _ => rfl

/-- A part that is left out under some condition. -/
theorem bides_when {c : Prop} [Decidable c] {y : World.M Activity Unit} {g : Unit → World.M Activity α}
    (hy : Bides pace frame (fun _ => True) y) (hg : Bides pace frame Q (g ())) :
    Bides pace frame Q (if c then y >>= g else g ()) := by
  split
  · exact hy.andThen fun _ => hg
  · exact hg

theorem bides_update {f : World → World} (htimers : ∀ w : World, (f w).hosts.timers = w.hosts.timers)
    (hrestarts : ∀ w : World, (f w).services.restartTimers = w.services.restartTimers)
    (hshifter : ∀ w : World, w.executor.shifter ≠ some 0 → (f w).executor.shifter ≠ some 0) :
    Bides pace frame (fun _ => True) (Scheduler.update f : World.M Activity Unit) := by
  intro p hp
  refine ⟨⟨hp.clock, (hrestarts p.shared).trans hp.restarts, hp.live, hshifter p.shared hp.shifter, ?_, hp.spawned⟩,
    htimers p.shared, trivial⟩
  exact (congrArg (List.map Timer.name) (htimers p.shared)).trans hp.names

theorem bides_serve (call : ServiceCall) : Bides pace frame (fun _ => True) (World.serve call) :=
  bides_update (fun _ => rfl) (fun _ => rfl) fun _ h => h

theorem bides_emit (e : Event) : Bides pace frame (fun _ => True) (World.emit e) :=
  bides_update (fun _ => rfl) (fun _ => rfl) fun _ h => h

theorem bides_updateCampaign (f : Campaign → Campaign) : Bides pace frame (fun _ => True) (World.updateCampaign f) :=
  bides_update (fun _ => rfl) (fun _ => rfl) fun _ h => h

theorem bides_keepOutcome (answer : Except MachineError Unit) :
    Bides pace frame (fun _ => True) (World.keepOutcome answer) :=
  bides_update (fun _ => rfl) (fun _ => rfl) fun _ h => h

theorem bides_spawn {task : Activity} (h : task.Scripted) :
    Bides pace frame (fun _ => True) (Scheduler.spawn task : World.M Activity Unit) := by
  refine fun p hp => ⟨⟨hp.clock, hp.restarts, hp.live, hp.shifter, hp.names, ?_⟩, rfl, trivial⟩
  exact List.forall_mem_append.2 ⟨hp.spawned, by simpa using h⟩

/-- The first source stays live when some other one ends. -/
theorem Machine.Paced.finish {p : Machine} (hp : p.Paced pace frame) {source : Nat} (h : source ≠ 0)
    (state : SourceState) : Paced pace frame { p with sources := p.sources.finish state source } := by
  refine ⟨hp.clock, hp.restarts, ?_, hp.shifter, hp.names, hp.spawned⟩
  exact (Sources.getElem?_finish state source 0 p.sources).trans ((if_neg h).trans hp.live)

theorem bides_cancel {source : Nat} (h : source ≠ 0) :
    Bides pace frame (fun _ => True) (Scheduler.cancel source : World.M Activity Unit) :=
  fun _ hp => ⟨hp.finish h .cancelled, rfl, trivial⟩

theorem bides_expire {source : Nat} (h : source ≠ 0) :
    Bides pace frame (fun _ => True) (Scheduler.expire source : World.M Activity Unit) :=
  fun _ hp => ⟨hp.finish h .expired, rfl, trivial⟩

theorem bides_cancelPhase : Bides pace frame (fun _ => True) (World.cancelPhase : World.M Activity Bool) := by
  intro p hp
  unfold World.cancelPhase
  rw [run_get]
  cases hshifter : p.shared.executor.shifter with
  | none => exact ⟨hp, rfl, trivial⟩
  | some source =>
    have hsource : source ≠ 0 := fun h => hp.shifter (h ▸ hshifter)
    exact ⟨hp.finish hsource .cancelled, rfl, trivial⟩

theorem bides_shiftPhase : Bides pace frame (fun _ => True) (World.shiftPhase : World.M Activity Bool) :=
  bides_cancelPhase.andThen fun _ => bides_when (bides_emit _) (bides_pure trivial)

theorem bides_nextPhase (current : Option Nat) :
    Bides pace frame (fun _ => True) (World.nextPhase current : World.M Activity (Option Nat)) := by
  refine bides_get.andThen fun _ => Bides.andThen ?_ fun _ => bides_pure trivial
  exact bides_update (fun _ => rfl) (fun _ => rfl) fun _ h => h

/-- The same for every member of a list. -/
theorem bides_forM {γ : Type} {xs : List γ} {f : γ → World.M Activity Unit}
    (h : ∀ a ∈ xs, Bides pace frame (fun _ => True) (f a)) : Bides pace frame (fun _ => True) (xs.forM f) := by
  induction xs with
  | nil => exact bides_pure trivial
  | cons a rest ih =>
    exact (h a List.mem_cons_self).andThen fun _ => ih fun b hb => h b (List.mem_cons_of_mem a hb)

/-- Calls of code leave the host objects alone. -/
theorem bides_invoke {c : Callable} {code : Code} (h : c.body = .code code) :
    Bides pace frame (fun _ => True) (World.invoke c : World.M Activity _) := by
  refine bides_look fun p => ?_
  have htouched : Touched (· = c) p.clock p.shared.executor.entity p.shared.hosts
      (c.invoke (leafArgsIn p.clock p.shared.executor.entity p.shared.hosts) p.shared.hosts).2 := .call .refl rfl
  have hhosts := htouched.eq_of_code fun _ hc => ⟨code, by rw [hc, h]⟩
  have hrun : ((World.invoke c).run p).2 = { p with shared := { p.shared with hosts :=
      (c.invoke (leafArgsIn p.clock p.shared.executor.entity p.shared.hosts) p.shared.hosts).2 } } := rfl
  rw [hrun, hhosts]

/-! ### Watched computations -/

/-- The watched computation keeps the timers on time, after a record of the deeds before it, and its result has the
property `Q`. -/
def KeepsTime (pace : Pace) (frame : Nat) (past : List Note) (Q : α → Prop) (x : Watched α) : Prop :=
  ∀ notes p, Machine.OnTime pace frame (past ++ notes) p →
    Machine.OnTime pace frame (past ++ ((x.run notes).run p).1.2) ((x.run notes).run p).2 ∧ Q ((x.run notes).run p).1.1

theorem keeps_pure {a : α} (h : Q a) : KeepsTime pace frame past Q (pure a) := fun _ _ hp => ⟨hp, h⟩

theorem KeepsTime.bind {x : Watched α} {f : α → Watched β} (hx : KeepsTime pace frame past Q x)
    (hf : ∀ a, Q a → KeepsTime pace frame past R (f a)) : KeepsTime pace frame past R (x >>= f) := by
  intro notes p hp
  obtain ⟨hnext, hq⟩ := hx notes p hp
  exact hf _ hq _ _ hnext

theorem keeps_change {y : World.M Activity α} (hy : Bides pace frame Q y) :
    KeepsTime pace frame past Q (Stage.change y) := by
  intro notes p hp
  obtain ⟨hpaced, htimers, hq⟩ := hy p hp.toPaced
  exact ⟨hp.of_timers hpaced htimers, hq⟩

/-- A deed that is no entry. -/
theorem keeps_perform {deed : Deed} {Q : deed.Answer → Prop} (hdeed : deed.isEntry = false)
    (hy : Bides pace frame Q deed.run) : KeepsTime pace frame past Q (Stage.perform deed) := by
  intro notes p hp
  obtain ⟨hpaced, htimers, hq⟩ := hy p hp.toPaced
  have hnote := (hp.note hdeed).of_timers hpaced htimers
  rw [List.append_assoc] at hnote
  exact ⟨hnote, hq⟩

theorem keeps_unlessCancelled {token : CancelToken} {x : Step Watched} {Q : Turn Activity → Prop}
    (hQ : Q .cancelled) (hx : KeepsTime pace frame past Q x) :
    KeepsTime pace frame past Q (Step.unlessCancelled token x) := by
  refine (keeps_change (bides_look fun _ => rfl)).bind fun cancelled _ => ?_
  cases cancelled with
  | true => exact keeps_pure hQ
  | false => exact hx

end Rules

end Barrage
