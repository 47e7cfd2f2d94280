import Barrage.Proofs.Machine.PhaseRuns
import Barrage.Proofs.Machine.PlainTurns
import Barrage.Proofs.Pattern.TwinLeaves

/-!
# Runs that go abreast

A pattern is run twice, with code and with units for its expressions. Both runs are in the same frame and have the same
sources, the same executor and the same record of the campaign; their tasks differ in nothing but the expressions, and
only the host objects of the second run may lack timers, those that no expression has named so far. This lasts as long
as every timer stands at zero when it is named for the first time: the code has had it since it was read, and the unit
makes it then.

The condition is about the deeds of the first run alone, and about all of them, so that what is shown of a computation
is shown under the condition on the record that it leaves. For computations to be put together a record has to grow
whatever the run may be, and a result of the first computation has to be like some result of the second.

## Main definitions

* `NamedIn`, `NamesAtZero` — timers that a record names, and records in which timers are named at zero
* `AnswersAlike` — answers that are alike: faults need not be the same
* `Activity.Twin`, `Turn.Twin` — activities and turns that differ in their expressions
* `Hosts.Abreast`, `Machine.Abreast` — hosts and runs that go abreast
* `Matches`, `Lockstep` — plain and watched computations that keep runs abreast

## Main results

* `Lockstep.bind`, `lockstep_change`, `lockstep_perform` — computations are put together
* `lockstep_evaluate` — an expression is evaluated in both runs
-/

namespace Barrage

/-! ### Records -/

/-- A timer is named by an expression that was evaluated. -/
def NamedIn (record : List Note) (name : String) : Prop :=
  ∃ note ∈ record, ∃ c, note.deed = .evaluate c ∧ ∃ handle ∈ c.timers, handle.name = name

/-- An evaluation finds the timers at zero that no evaluation before it named. -/
def Note.FindsNew (earlier : List Note) (note : Note) : Prop :=
  ∀ c, note.deed = .evaluate c → ∀ handle ∈ c.timers, ¬ NamedIn earlier handle.name →
    note.before.shared.hosts.timer? handle.name = some (Timer.new handle.name)

/-- Every timer stands at zero when it is named for the first time. -/
def NamesAtZero (record : List Note) : Prop :=
  ∀ earlier note, earlier ++ [note] <+: record → note.FindsNew earlier

theorem NamesAtZero.mono {record more : List Note} (h : NamesAtZero more) (hmore : record <+: more) :
    NamesAtZero record :=
  fun earlier note hnote => h earlier note (hnote.trans hmore)

theorem NamesAtZero.nil : NamesAtZero [] := by
  intro earlier note h
  simp at h

/-- One more deed, which finds its timers at zero unless they were named before. -/
theorem NamesAtZero.concat {record : List Note} {note : Note} (h : NamesAtZero record) (hnote : note.FindsNew record) :
    NamesAtZero (record ++ [note]) := by
  intro earlier other hother
  rcases List.prefix_concat_iff.1 hother with heq | hother
  · obtain ⟨rfl, hlast⟩ := List.append_inj' heq rfl
    cases hlast
    exact hnote
  · exact h earlier other hother

theorem namedIn_append {record more : List Note} {name : String} :
    NamedIn (record ++ more) name ↔ NamedIn record name ∨ NamedIn more name := by
  simp only [NamedIn, List.mem_append, or_and_right, exists_or]

/-! ### Answers -/

section Answers

variable {α β : Type} {S : α → β → Prop}

/-- Answers that are alike: results that are related, two cancellations, or two faults of any kind. -/
inductive AnswersAlike (S : α → β → Prop) : Except MachineError α → Except MachineError β → Prop
  | ok {a : α} {b : β} (h : S a b) : AnswersAlike S (.ok a) (.ok b)
  | cancelled : AnswersAlike S (.error .cancelled) (.error .cancelled)
  | failed {e e' : MachineError} (h : e.isCancellation = false) (h' : e'.isCancellation = false) :
    AnswersAlike S (.error e) (.error e')

theorem answersAlike_error (e : MachineError) : AnswersAlike S (.error e) (.error e) := by
  cases e with
  | cancelled => exact .cancelled
  | _ => exact .failed rfl rfl

theorem AnswersAlike.refl {answer : Except MachineError α} : AnswersAlike Eq answer answer :=
  match answer with
  | .ok _ => .ok rfl
  | .error e => answersAlike_error e

end Answers

/-! ### Activities -/

section Twins

variable {base : Hosts}

/-- Phases on their way that differ in their expressions. -/
inductive PhaseRun.Twin (base : Hosts) : PhaseRun → PhaseRun → Prop
  | mk (phase : Phase (TwinPair base)) (index : Nat) (token : CancelToken) (source started : Nat) :
    Twin base ⟨phase.map TwinPair.direct, index, token, source, started⟩
      ⟨phase.map TwinPair.served, index, token, source, started⟩

/-- Patterns on their way that differ in their expressions. -/
inductive PatternRun.Twin (base : Hosts) : PatternRun → PatternRun → Prop
  | mk (props : PatternProps) (phases : List (Phase (TwinPair base))) (token : CancelToken) :
    Twin base ⟨props, Phase.mapList TwinPair.direct phases, token⟩ ⟨props, Phase.mapList TwinPair.served phases, token⟩

/-- Continuations that differ in their expressions. -/
inductive Continuation.Twin (base : Hosts) : Continuation → Continuation → Prop
  | sequence (rest : List (Node (TwinPair base))) (token : CancelToken) :
    Twin base (.sequence (Node.mapList TwinPair.direct rest) token) (.sequence (Node.mapList TwinPair.served rest) token)
  | spread (blocking : Bool) (children : List (Node (TwinPair base))) (token : CancelToken) :
    Twin base (.spread blocking (Node.mapList TwinPair.direct children) token)
      (.spread blocking (Node.mapList TwinPair.served children) token)
  | hold (stays : Bool) (token : CancelToken) : Twin base (.hold stays token) (.hold stays token)
  | settle {run run' : PhaseRun} (h : run.Twin base run') : Twin base (.settle run) (.settle run')
  | enterPhase {run run' : PatternRun} (h : run.Twin base run') (index : Nat) :
    Twin base (.enterPhase run index) (.enterPhase run' index)
  | nextPhase {run run' : PatternRun} (h : run.Twin base run') (index : Nat) :
    Twin base (.nextPhase run index) (.nextPhase run' index)
  | closeBoss (boss : Boss) : Twin base (.closeBoss boss) (.closeBoss boss)
  | expire (source : Nat) : Twin base (.expire source) (.expire source)
  | advanceTimers (token : CancelToken) : Twin base (.advanceTimers token) (.advanceTimers token)
  | report : Twin base .report .report

/-- Activities that differ in their expressions. -/
inductive Activity.Twin (base : Hosts) : Activity → Activity → Prop
  | start (node : Node (TwinPair base)) (token : CancelToken) :
    Twin base (.start (node.map TwinPair.direct) token) (.start (node.map TwinPair.served) token)
  | frames (left : Nat) (token : CancelToken) : Twin base (.wait (.frames left token)) (.wait (.frames left token))
  | condition (c : TwinPair base) (token : CancelToken) :
    Twin base (.wait (.until c.direct token)) (.wait (.until c.served token))
  | cancelled (token : CancelToken) : Twin base (.wait (.cancelled token)) (.wait (.cancelled token))
  | andThen {first first' : Activity} {next next' : Continuation} (hfirst : Twin base first first')
    (hnext : next.Twin base next') : Twin base (.andThen first next) (.andThen first' next')
  | join {parts parts' : List Activity} (h : List.Forall₂ (Twin base) parts parts') :
    Twin base (.join parts) (.join parts')
  | stuck : Twin base .stuck .stuck

/-- Turns that differ in the expressions of what is left, and perhaps in a fault. -/
inductive Turn.Twin (base : Hosts) : Turn Activity → Turn Activity → Prop
  | done {answer answer' : Except MachineError Unit} (h : AnswersAlike Eq answer answer') :
    Twin base (.done answer) (.done answer')
  | waiting {rest rest' : Activity} (h : rest.Twin base rest') : Twin base (.waiting rest) (.waiting rest')

/-- What is left of parts that go on side by side differs in its expressions, and perhaps in a fault. -/
abbrev PartsTwin (base : Hosts) : Except MachineError (List Activity) → Except MachineError (List Activity) → Prop :=
  AnswersAlike (List.Forall₂ (Activity.Twin base))

end Twins

/-! ### Runs -/

/-- Worlds that look the same to whatever does not look at timers. -/
structure World.Resembles (w w' : World) : Prop where
  executor : w'.executor = w.executor
  campaign : w'.campaign = w.campaign
  services : w'.services = w.services
  bufferFrames : w'.bufferFrames = w.bufferFrames
  entities : w'.hosts.entities = w.hosts.entities

/-- Hosts of which the second lack no timer that a record names, and no other objects. -/
structure Hosts.Abreast (base : Hosts) (record : List Note) (hosts fewer : Hosts) : Prop where
  covers : hosts.Covers fewer
  aligned : base.Aligned hosts
  known : ∀ name, NamedIn record name → (fewer.timer? name).isSome

/-- Worlds that differ in their hosts, and perhaps in what a fault of the run was. -/
structure World.Abreast (base : Hosts) (record : List Note) (w w' : World) : Prop extends w.Resembles w' where
  hosts : Hosts.Abreast base record w.hosts w'.hosts
  outcome : Option.Rel (AnswersAlike Eq) w.outcome w'.outcome

namespace Machine

variable {base : Hosts} {record : List Note} {p p' : Machine}

/-- Runs that look the same to whatever does not look at timers. -/
structure Resembles (p p' : Machine) : Prop where
  clock : p'.clock = p.clock
  sources : p'.sources = p.sources
  shared : p.shared.Resembles p'.shared

/-- Runs in the same frame whose tasks differ in their expressions and whose worlds go abreast. -/
structure Abreast (base : Hosts) (record : List Note) (p p' : Machine) : Prop where
  clock : p'.clock = p.clock
  sources : p'.sources = p.sources
  spawned : List.Forall₂ (Activity.Twin base) p.spawned p'.spawned
  shared : p.shared.Abreast base record p'.shared

theorem Resembles.refl (p : Machine) : p.Resembles p := ⟨rfl, rfl, ⟨rfl, rfl, rfl, rfl, rfl⟩⟩

theorem Abreast.resembles (h : p.Abreast base record p') : p.Resembles p' := ⟨h.clock, h.sources, h.shared.toResembles⟩

/-- Both runs know the same hit points. -/
theorem Resembles.hp (h : p.Resembles p') :
    p'.shared.hosts.hp p'.shared.executor.entity = p.shared.hosts.hp p.shared.executor.entity := by
  rw [Hosts.hp, Hosts.hp, Hosts.entityOf, Hosts.entityOf, h.shared.entities, h.shared.executor]

/-- A deed that evaluates nothing names no timers. -/
theorem Abreast.note (h : p.Abreast base record p') (note : Note) (hnote : ∀ c, note.deed ≠ .evaluate c) :
    p.Abreast base (record ++ [note]) p' where
  clock := h.clock
  sources := h.sources
  spawned := h.spawned
  shared := { h.shared with
    hosts.covers := h.shared.hosts.covers
    hosts.aligned := h.shared.hosts.aligned
    hosts.known := fun name hname => by
      rcases namedIn_append.1 hname with hname | ⟨_, hmem, c, hc, -⟩
      · exact h.shared.hosts.known name hname
      · exact absurd (List.mem_singleton.1 hmem ▸ hc) (hnote c) }

end Machine

/-! ### Plain computations -/

section Plain

variable {α β α' β' : Type} {base : Hosts} {R : α → β → Prop} {S : α' → β' → Prop} {y : World.M Activity α}
  {y' : World.M Activity β} {g : α → World.M Activity α'} {g' : β → World.M Activity β'}

/-- Plain computations that keep runs abreast, with results that are related. -/
def Matches (base : Hosts) (R : α → β → Prop) (y : World.M Activity α) (y' : World.M Activity β) : Prop :=
  ∀ p : Machine, (∃ b, R (y.run p).1 b) ∧ ∀ record p', p.Abreast base record p' →
    Machine.Abreast base record (y.run p).2 (y'.run p').2 ∧ R (y.run p).1 (y'.run p').1

theorem matches_pure {a : α} {b : β} (h : R a b) : Matches base R (pure a) (pure b) :=
  fun _ => ⟨⟨b, h⟩, fun _ _ hp => ⟨hp, h⟩⟩

theorem Matches.bind (hy : Matches base R y y') (hg : ∀ a b, R a b → Matches base S (g a) (g' b)) :
    Matches base S (y >>= g) (y' >>= g') := by
  intro p
  obtain ⟨⟨b, hb⟩, habreast⟩ := hy p
  refine ⟨(hg _ b hb _).1, fun record p' hp => ?_⟩
  obtain ⟨hnext, hR⟩ := habreast record p' hp
  exact (hg _ _ hR _).2 record _ hnext

/-- A part whose result is the same in both runs. -/
theorem Matches.andThen {y y' : World.M Activity α} {g g' : α → World.M Activity α'} {S : α' → α' → Prop}
    (hy : Matches base Eq y y') (hg : ∀ a, Matches base S (g a) (g' a)) : Matches base S (y >>= g) (y' >>= g') :=
  hy.bind fun a _ h => h ▸ hg a

/-- Computations that only look at the run. -/
theorem matches_look (h : ∀ p, (y.run p).2 = p) (h' : ∀ p, (y'.run p).2 = p)
    (hR : ∀ p p', Machine.Resembles p p' → R (y.run p).1 (y'.run p').1) : Matches base R y y' := by
  refine fun p => ⟨⟨_, hR p p (.refl p)⟩, fun record p' hp => ?_⟩
  rw [h p, h' p']
  exact ⟨hp, hR p p' hp.resembles⟩

theorem matches_get : Matches base Machine.Resembles (get : World.M Activity Machine) get :=
  matches_look (fun _ => rfl) (fun _ => rfl) fun _ _ h => h

/-- A part that is left out under some condition. -/
theorem matches_when {c : Prop} [Decidable c] {y y' : World.M Activity Unit} {g : Unit → World.M Activity α}
    {g' : Unit → World.M Activity β} (hy : Matches base Eq y y') (hg : Matches base R (g ()) (g' ())) :
    Matches base R (if c then y >>= g else g ()) (if c then y' >>= g' else g' ()) := by
  split
  · exact hy.bind fun _ _ _ => hg
  · exact hg

theorem matches_update {f : World → World}
    (h : ∀ record w w', World.Abreast base record w w' → World.Abreast base record (f w) (f w')) :
    Matches base Eq (Scheduler.update f : World.M Activity Unit) (Scheduler.update f) :=
  fun _ => ⟨⟨(), rfl⟩, fun record _ hp => ⟨⟨hp.clock, hp.sources, hp.spawned, h record _ _ hp.shared⟩, rfl⟩⟩

theorem matches_serve (call : ServiceCall) : Matches base Eq (World.serve call) (World.serve call) :=
  matches_update fun _ _ _ h =>
    { h with services := congrArg (fun s : Services => { s with calls := s.calls ++ [call] }) h.services }

theorem matches_updateExecutor (f : Executor → Executor) :
    Matches base Eq (World.updateExecutor f) (World.updateExecutor f) :=
  matches_update fun _ _ _ h => { h with executor := congrArg f h.executor }

theorem matches_emit (e : Event) : Matches base Eq (World.emit e) (World.emit e) := matches_updateExecutor _

theorem matches_updateCampaign (f : Campaign → Campaign) :
    Matches base Eq (World.updateCampaign f) (World.updateCampaign f) :=
  matches_update fun _ _ _ h => { h with campaign := congrArg f h.campaign }

/-- A change of the hosts that keeps the timers and entities of both together. -/
theorem matches_updateHosts {f : Hosts → Hosts} (hcovers : ∀ hosts fewer, hosts.Covers fewer → (f hosts).Covers (f fewer))
    (haligned : ∀ hosts, base.Aligned hosts → base.Aligned (f hosts))
    (hknown : ∀ hosts name, (hosts.timer? name).isSome → ((f hosts).timer? name).isSome) :
    Matches base Eq (World.updateHosts f) (World.updateHosts f) :=
  matches_update fun _ _ _ h =>
    have hcovers := hcovers _ _ h.hosts.covers
    { h with
      entities := hcovers.entities
      hosts := ⟨hcovers, haligned _ h.hosts.aligned, fun name hname => hknown _ _ (h.hosts.known name hname)⟩ }

theorem matches_restart : Matches base Eq (World.updateHosts Hosts.restart) (World.updateHosts Hosts.restart) :=
  matches_updateHosts (fun _ _ h => h.restart) (fun _ h => h.restart) fun hosts name h => by
    rwa [Hosts.timer?_restart, Option.isSome_map]

theorem matches_passFrame : Matches base Eq World.passFrame World.passFrame := by
  refine matches_get.bind fun p p' hp => ?_
  rw [hp.clock]
  refine matches_updateHosts (fun _ _ h => h.advance _) (fun _ h => h.advance _) fun hosts name h => ?_
  rwa [Hosts.timer?_advance, Option.isSome_map]

theorem matches_setHp (hp : Float) : Matches base Eq (World.setHp hp) (World.setHp hp) :=
  matches_update fun _ w w' h => by
    have hcovers : (w.hosts.setHp w.executor.entity hp).Covers (w'.hosts.setHp w'.executor.entity hp) := by
      rw [h.executor]
      exact h.hosts.covers.setHp _ hp
    exact { h with entities := hcovers.entities, hosts := ⟨hcovers, h.hosts.aligned.setHp _ _, h.hosts.known⟩ }

theorem matches_keepOutcome {answer answer' : Except MachineError Unit} (h : AnswersAlike Eq answer answer') :
    Matches base Eq (World.keepOutcome answer) (World.keepOutcome answer') :=
  fun _ => ⟨⟨(), rfl⟩, fun _ _ hp =>
    ⟨⟨hp.clock, hp.sources, hp.spawned, { hp.shared with outcome := .some h }⟩, rfl⟩⟩

theorem matches_spawn {task task' : Activity} (h : task.Twin base task') :
    Matches base Eq (Scheduler.spawn task : World.M Activity Unit) (Scheduler.spawn task') :=
  fun _ => ⟨⟨(), rfl⟩, fun _ _ hp =>
    ⟨⟨hp.clock, hp.sources, List.rel_append hp.spawned (.cons h .nil), hp.shared⟩, rfl⟩⟩

/-- A change of the sources. -/
theorem matches_finish (source : Nat) (state : SourceState) :
    Matches base Eq (modify fun s => { s with sources := s.sources.finish state source } : World.M Activity Unit)
      (modify fun s => { s with sources := s.sources.finish state source }) :=
  fun _ => ⟨⟨(), rfl⟩, fun _ _ hp =>
    ⟨⟨hp.clock, congrArg (Sources.finish state source) hp.sources, hp.spawned, hp.shared⟩, rfl⟩⟩

theorem matches_cancel (source : Nat) :
    Matches base Eq (Scheduler.cancel source : World.M Activity Unit) (Scheduler.cancel source) :=
  matches_finish source .cancelled

theorem matches_expire (source : Nat) :
    Matches base Eq (Scheduler.expire source : World.M Activity Unit) (Scheduler.expire source) :=
  matches_finish source .expired

theorem matches_makeSource :
    Matches base Eq (Scheduler.makeSource : World.M Activity Nat) Scheduler.makeSource := by
  refine fun p => ⟨⟨_, rfl⟩, fun _ p' hp => ⟨⟨hp.clock, ?_, hp.spawned, hp.shared⟩, ?_⟩⟩
  · exact congrArg (fun s : Sources => s.make.2) hp.sources
  · exact congrArg (fun s : Sources => s.make.1) hp.sources.symm

theorem matches_framesFor (seconds : Float) :
    Matches base Eq (Scheduler.framesFor seconds : World.M Activity Nat) (Scheduler.framesFor seconds) :=
  matches_look (fun _ => rfl) (fun _ => rfl) fun _ _ h => congrArg (FrameClock.framesFor · seconds) h.clock.symm

theorem matches_cancelPhase : Matches base Eq (World.cancelPhase : World.M Activity Bool) World.cancelPhase := by
  refine matches_get.bind fun p p' hp => ?_
  rw [hp.shared.executor]
  cases p.shared.executor.shifter with
  | none => exact matches_pure rfl
  | some source => exact (matches_cancel source).andThen fun _ => matches_pure rfl

theorem matches_shiftPhase : Matches base Eq (World.shiftPhase : World.M Activity Bool) World.shiftPhase :=
  matches_cancelPhase.andThen fun _ => matches_when (matches_emit _) (matches_pure rfl)

theorem matches_nextPhase (current : Option Nat) :
    Matches base Eq (World.nextPhase current : World.M Activity (Option Nat)) (World.nextPhase current) := by
  refine matches_get.bind fun p p' hp => ?_
  rw [hp.shared.executor]
  exact (matches_updateExecutor _).andThen fun _ => matches_pure rfl

/-- The same for the members of two lists at the same places. -/
theorem matches_forM {γ : Type} {xs xs' : List γ} {f : γ → World.M Activity Unit}
    (h : List.Forall₂ (fun a a' => Matches base Eq (f a) (f a')) xs xs') :
    Matches base Eq (xs.forM f) (xs'.forM f) := by
  induction h with
  | nil => exact matches_pure rfl
  | cons hfirst _ ih => exact hfirst.andThen fun _ => ih

end Plain

/-! ### Watched computations -/

section Watched

variable {α β α' β' : Type} {base : Hosts} {past : List Note} {R : α → β → Prop} {S : α' → β' → Prop}

/-- A watched computation and a plain one that keep runs abreast, as long as timers are named at zero, with results that
are related. -/
def Lockstep (base : Hosts) (past : List Note) (R : α → β → Prop) (x : Watched α) (y : World.M Activity β) : Prop :=
  ∀ notes p, notes <+: ((x.run notes).run p).1.2 ∧ (∃ b, R ((x.run notes).run p).1.1 b) ∧
    ∀ p', Machine.Abreast base (past ++ notes) p p' → NamesAtZero (past ++ ((x.run notes).run p).1.2) →
      Machine.Abreast base (past ++ ((x.run notes).run p).1.2) ((x.run notes).run p).2 (y.run p').2 ∧
        R ((x.run notes).run p).1.1 (y.run p').1

theorem lockstep_pure {a : α} {b : β} (h : R a b) : Lockstep base past R (pure a) (pure b) :=
  fun _ _ => ⟨List.prefix_refl _, ⟨b, h⟩, fun _ hp _ => ⟨hp, h⟩⟩

theorem Lockstep.bind {x : Watched α} {y : World.M Activity β} {f : α → Watched α'} {g : β → World.M Activity β'}
    (hx : Lockstep base past R x y) (hf : ∀ a b, R a b → Lockstep base past S (f a) (g b)) :
    Lockstep base past S (x >>= f) (y >>= g) := by
  intro notes p
  obtain ⟨hgrows, ⟨b, hb⟩, habreast⟩ := hx notes p
  have hbind : ((x >>= f).run notes).run p =
      ((f ((x.run notes).run p).1.1).run ((x.run notes).run p).1.2).run ((x.run notes).run p).2 := rfl
  obtain ⟨hgrows', hresult, -⟩ := hf _ b hb ((x.run notes).run p).1.2 ((x.run notes).run p).2
  rw [hbind]
  refine ⟨hgrows.trans hgrows', hresult, fun p' hp hnames => ?_⟩
  -- The record of the first part is a prefix of the whole record, so what is said of this one holds of it.
  obtain ⟨hnext, hR⟩ := habreast p' hp (hnames.mono ((List.prefix_append_right_inj past).2 hgrows'))
  exact (hf _ _ hR _ _).2.2 _ hnext hnames

/-- A part whose result is the same in both runs. -/
theorem Lockstep.andThen {x : Watched α} {y : World.M Activity α} {f : α → Watched α'} {g : α → World.M Activity β'}
    (hx : Lockstep base past Eq x y) (hf : ∀ a, Lockstep base past S (f a) (g a)) :
    Lockstep base past S (x >>= f) (y >>= g) :=
  hx.bind fun a _ h => h ▸ hf a

theorem lockstep_change {y : World.M Activity α} {y' : World.M Activity β} (hy : Matches base R y y') :
    Lockstep base past R (Stage.change y) (Stage.change y') := by
  intro notes p
  obtain ⟨hresult, habreast⟩ := hy p
  exact ⟨List.prefix_refl _, hresult, fun p' hp _ => habreast _ p' hp⟩

/-- A deed that evaluates nothing. -/
theorem lockstep_perform {deed deed' : Deed} {R : deed.Answer → deed'.Answer → Prop}
    (hdeed : ∀ c, deed ≠ .evaluate c) (hy : Matches base R deed.run deed'.run) :
    Lockstep base past R (Stage.perform deed) (Stage.perform deed') := by
  intro notes p
  obtain ⟨hresult, habreast⟩ := hy p
  refine ⟨List.prefix_append _ _, hresult, fun p' hp _ => ?_⟩
  obtain ⟨hnext, hR⟩ := habreast _ p' hp
  have hnote := hnext.note ⟨deed, p⟩ hdeed
  rw [List.append_assoc] at hnote
  exact ⟨hnote, hR⟩

theorem lockstep_unlessCancelled {token : CancelToken} {x : Step Watched} {y : Step (World.M Activity)}
    {R : Turn Activity → Turn Activity → Prop} (hR : R .cancelled .cancelled) (hx : Lockstep base past R x y) :
    Lockstep base past R (Step.unlessCancelled token x) (Step.unlessCancelled token y) := by
  have hlook : Matches base Eq (Scheduler.isCancelled token : World.M Activity Bool) (Scheduler.isCancelled token) :=
    matches_look (fun _ => rfl) (fun _ => rfl) fun _ _ h => congrArg (CancelToken.isCancelled token) h.sources.symm
  refine (lockstep_change hlook).andThen fun cancelled => ?_
  cases cancelled with
  | true => exact lockstep_pure hR
  | false => exact hx

/-- An expression is evaluated in both runs. A timer that was not named before is made in the second run, where it
stands at zero as in the first one. -/
theorem lockstep_evaluate (c : TwinPair base) :
    Lockstep base past (AnswersAlike Eq) (Stage.perform (.evaluate c.direct)) (Stage.perform (.evaluate c.served)) := by
  intro notes p
  have hrun : ((Stage.perform (.evaluate c.direct) : Watched (Except MachineError Value)).run notes).run p =
      (((c.direct.invoke (leafArgsIn p.clock p.shared.executor.entity p.shared.hosts) p.shared.hosts).1.mapError .eval,
        notes ++ [⟨.evaluate c.direct, p⟩]), { p with shared := { p.shared with hosts :=
          (c.direct.invoke (leafArgsIn p.clock p.shared.executor.entity p.shared.hosts) p.shared.hosts).2 } }) := rfl
  rw [hrun]
  refine ⟨List.prefix_append _ _, ⟨_, .refl⟩, fun p' hp hnames => ?_⟩
  rw [← List.append_assoc] at hnames ⊢
  have hargs : leafArgsIn p'.clock p'.shared.executor.entity p'.shared.hosts =
      leafArgsIn p.clock p.shared.executor.entity p.shared.hosts := by
    rw [leafArgsIn, leafArgsIn, hp.clock, hp.resembles.hp]
  have hrun' : (Stage.perform (.evaluate c.served) : World.M Activity (Except MachineError Value)).run p' =
      ((c.served.invoke (leafArgsIn p'.clock p'.shared.executor.entity p'.shared.hosts) p'.shared.hosts).1.mapError .eval,
        { p' with shared := { p'.shared with hosts :=
          (c.served.invoke (leafArgsIn p'.clock p'.shared.executor.entity p'.shared.hosts) p'.shared.hosts).2 } }) := rfl
  rw [hrun', hargs]
  -- A timer that the second run lacks is named for the first time here, as it would have been made before otherwise.
  obtain ⟨later, hcovers, hfound, hkept, hresult⟩ := c.twins.call
    (leafArgsIn p.clock p.shared.executor.entity p.shared.hosts) rfl hp.shared.hosts.aligned hp.shared.hosts.covers
    fun handle hhandle hmissing => by
      refine hnames _ _ (List.prefix_refl _) c.direct rfl handle hhandle fun hnamed => ?_
      have hknown := hp.shared.hosts.known _ hnamed
      rw [hmissing] at hknown
      cases hknown
  have hknown : ∀ name, NamedIn (past ++ notes ++ [⟨.evaluate c.direct, p⟩]) name → (later.timer? name).isSome := by
    intro name hname
    rcases namedIn_append.1 hname with hname | ⟨note, hnote, c', hdeed, handle, hhandle, rfl⟩
    · exact hkept name (hp.shared.hosts.known name hname)
    · cases List.mem_singleton.1 hnote
      cases hdeed
      exact hfound handle hhandle
  have hnext : Machine.Abreast base (past ++ notes ++ [⟨.evaluate c.direct, p⟩]) p
      { p' with shared := { p'.shared with hosts := later } } :=
    ⟨hp.clock, hp.sources, hp.spawned, { hp.shared with
      entities := hcovers.entities, hosts := ⟨hcovers, hp.shared.hosts.aligned, hknown⟩ }⟩
  rcases hresult with ⟨v, hdirect, hserved⟩ | ⟨e, e', hdirect, hserved⟩
  · rw [hdirect, hserved]
    exact ⟨hnext, .ok rfl⟩
  · rw [hdirect, hserved]
    exact ⟨hnext, .failed rfl rfl⟩

end Watched

end Barrage
