import Barrage.Machine.Run
import Mathlib.Order.Basic

/-!
# Watched runs

A turn cannot be seen from its outcome alone: that an expression was evaluated leaves no trace, and in which
order things were done is lost. So turns are taken on a second stage, which keeps a record of the deeds and
of the run just before each of them. What a computation does on it is stated together with what the same
computation does on the plain stage, of which it has to be an exact copy.

Whatever a turn does, it only adds: tasks go to the end of those that were spawned, sources end and never
revive, and events and completions are kept.

## Main definitions

* `Note`, `Watched`: the record of a deed, and the stage that keeps it
* `Machine.Advances`: what a part of a turn may do to a run
* `Shows`: a computation on the watched stage is the plain one, with a record of which something is known

## Main results

* `Shows.bind`, `shows_change`, `shows_perform`: computations are put together
* `shows_unlessCancelled`: what is done behind a token is done while it is live
-/

namespace Barrage

/-! ### Tokens and sources -/

namespace Sources

variable {s : Sources} {source other : Nat} {state : SourceState}

/-- Sources may be added and may end, but none becomes live again. -/
def Ages (s t : Sources) : Prop :=
  s.states.length ≤ t.states.length ∧ ∀ source, s.isCancelled source → t.isCancelled source

theorem Ages.refl (s : Sources) : s.Ages s := ⟨Nat.le_refl _, fun _ h => h⟩

theorem Ages.trans {t u : Sources} (hst : s.Ages t) (htu : t.Ages u) : s.Ages u :=
  ⟨Nat.le_trans hst.1 htu.1, fun source h => htu.2 source (hst.2 source h)⟩

theorem isCancelled_iff : s.isCancelled source ↔ ∃ state, s.states[source]? = some state ∧ state ≠ .live := by
  unfold isCancelled
  split
  · rename_i state h
    simp [h]
  · rename_i h
    simp [h]

theorem ages_make (s : Sources) : s.Ages s.make.2 := by
  refine ⟨by simp [make], fun source h => ?_⟩
  obtain ⟨state, hstate, hlive⟩ := isCancelled_iff.1 h
  refine isCancelled_iff.2 ⟨state, ?_, hlive⟩
  exact List.getElem?_append_left (List.getElem?_eq_some_iff.1 hstate).1 ▸ hstate

theorem getElem?_finish (state : SourceState) (source other : Nat) (s : Sources) :
    (s.finish state source).states[other]? =
      if source = other then s.states[other]?.map fun old => if old = .live then state else old
      else s.states[other]? := by
  simp only [finish, List.getElem?_modify]
  split <;> simp

theorem ages_finish (state : SourceState) (source : Nat) (s : Sources) : s.Ages (s.finish state source) := by
  refine ⟨by simp [finish], fun other h => ?_⟩
  obtain ⟨old, hold, hlive⟩ := isCancelled_iff.1 h
  rw [isCancelled_iff, getElem?_finish, hold]
  split
  · exact ⟨old, by simp [hlive], hlive⟩
  · exact ⟨old, rfl, hlive⟩

/-- A source that exists has ended once it is finished. -/
theorem isCancelled_finish (hstate : state ≠ .live) (hsource : source < s.states.length) :
    (s.finish state source).isCancelled source := by
  rw [isCancelled_iff, getElem?_finish, if_pos rfl, List.getElem?_eq_getElem hsource]
  refine ⟨_, rfl, ?_⟩
  dsimp only
  split
  · exact hstate
  · assumption

end Sources

namespace CancelToken

/-- Whatever cancels the second token cancels the first. -/
def Includes (token T : CancelToken) : Prop := ∀ source ∈ T.sources, source ∈ token.sources

variable {token T : CancelToken} {s t : Sources}

theorem includes_refl (token : CancelToken) : token.Includes token := fun _ h => h

theorem includes_none (token : CancelToken) : token.Includes none := fun _ h => by cases h

theorem isCancelled_iff : token.isCancelled s ↔ ∃ source ∈ token.sources, s.isCancelled source := by
  rw [isCancelled, List.any_eq_true]

theorem Includes.isCancelled (h : token.Includes T) (hT : T.isCancelled s) : token.isCancelled s := by
  obtain ⟨source, hmem, hs⟩ := isCancelled_iff.1 hT
  exact isCancelled_iff.2 ⟨source, h source hmem, hs⟩

theorem isCancelled_of_ages (hst : s.Ages t) (h : token.isCancelled s) : token.isCancelled t := by
  obtain ⟨source, hmem, hs⟩ := isCancelled_iff.1 h
  exact isCancelled_iff.2 ⟨source, hmem, hst.2 source hs⟩

theorem mem_addSources {known : List Nat} {source : Nat} :
    source ∈ addSources known token ↔ source ∈ known ∨ source ∈ token.sources := by
  unfold addSources
  generalize token.sources = sources
  induction sources generalizing known with
  | nil => simp
  | cons first rest ih =>
    rw [List.foldl_cons, ih, List.mem_cons]
    split
    · rename_i h
      have hfirst : first ∈ known := by simpa using h
      constructor
      · rintro (h | h)
        · exact .inl h
        · exact .inr (.inr h)
      · rintro (h | rfl | h)
        · exact .inl h
        · exact .inl hfirst
        · exact .inr h
    · simp [or_assoc]

theorem mem_linked {tokens : List CancelToken} {source : Nat} :
    source ∈ (linked tokens).sources ↔ ∃ token ∈ tokens, source ∈ token.sources := by
  have hfold : ∀ (tokens : List CancelToken) (known : List Nat),
      source ∈ tokens.foldl addSources known ↔
        source ∈ known ∨ ∃ token ∈ tokens, source ∈ token.sources := by
    intro tokens
    induction tokens with
    | nil => simp
    | cons first rest ih =>
      intro known
      rw [List.foldl_cons, ih, mem_addSources, or_assoc]
      simp
  exact (hfold tokens []).trans (by simp)

end CancelToken

namespace PhaseRun

variable {run : PhaseRun}

theorem mem_joint {source : Nat} :
    source ∈ run.joint.sources ↔ source ∈ run.token.sources ∨ source = run.source := by
  rw [joint, CancelToken.mem_linked]
  simp [CancelToken.ofSource]

theorem joint_includes (run : PhaseRun) : run.joint.Includes run.token :=
  fun _ h => mem_joint.2 (.inl h)

end PhaseRun

/-! ### What a turn may do to a run -/

/-- A part of a turn lets the clock and the tasks of the frame alone, and only adds to the rest. Tasks that
it spawns are of some kind. -/
structure Machine.Advances (S : Activity → Prop) (p q : Machine) : Prop where
  clock : q.clock = p.clock
  tasks : q.tasks = p.tasks
  spawned : ∃ new, q.spawned = p.spawned ++ new ∧ ∀ task ∈ new, S task
  sources : p.sources.Ages q.sources
  events : p.shared.executor.events.events <+: q.shared.executor.events.events
  completions : p.shared.campaign.completions <+: q.shared.campaign.completions

namespace Machine.Advances

variable {S S' : Activity → Prop} {p q r : Machine}

theorem refl (p : Machine) : p.Advances S p :=
  ⟨rfl, rfl, ⟨[], by simp⟩, .refl _, List.prefix_refl _, List.prefix_refl _⟩

theorem trans (hpq : p.Advances S q) (hqr : q.Advances S r) : p.Advances S r where
  clock := hqr.clock.trans hpq.clock
  tasks := hqr.tasks.trans hpq.tasks
  spawned := by
    obtain ⟨new, hq, hnew⟩ := hpq.spawned
    obtain ⟨more, hr, hmore⟩ := hqr.spawned
    refine ⟨new ++ more, by rw [hr, hq, List.append_assoc], fun task htask => ?_⟩
    exact (List.mem_append.1 htask).elim (hnew task) (hmore task)
  sources := hpq.sources.trans hqr.sources
  events := hpq.events.trans hqr.events
  completions := hpq.completions.trans hqr.completions

theorem mono (h : p.Advances S q) (himp : ∀ task, S task → S' task) : p.Advances S' q where
  clock := h.clock
  tasks := h.tasks
  spawned := by
    obtain ⟨new, hq, hnew⟩ := h.spawned
    exact ⟨new, hq, fun task htask => himp task (hnew task htask)⟩
  sources := h.sources
  events := h.events
  completions := h.completions

/-- A change of what is shared that keeps events and completions. -/
theorem of_shared {w : World} (hevents : p.shared.executor.events.events <+: w.executor.events.events)
    (hcompletions : p.shared.campaign.completions <+: w.campaign.completions) :
    p.Advances S { p with shared := w } :=
  ⟨rfl, rfl, ⟨[], by simp⟩, .refl _, hevents, hcompletions⟩

theorem of_sources {sources : Sources} (h : p.sources.Ages sources) :
    p.Advances S { p with sources := sources } :=
  ⟨rfl, rfl, ⟨[], by simp⟩, h, List.prefix_refl _, List.prefix_refl _⟩

theorem of_spawn {task : Activity} (h : S task) :
    p.Advances S { p with spawned := p.spawned ++ [task] } :=
  ⟨rfl, rfl, ⟨[task], rfl, by simpa using h⟩, .refl _, List.prefix_refl _, List.prefix_refl _⟩

end Machine.Advances

/-! ### What is emitted -/

/-- What an event says if it is an emission. -/
def Event.emission? : Event → Option (String × Value)
  | emitted label value => some (label, value)
  | _ => none

/-- What was emitted in a run and not yet taken out. -/
def Machine.emitted (p : Machine) : List (String × Value) :=
  p.shared.executor.events.events.filterMap Event.emission?

/-- Events are added, but nothing is emitted. -/
def QuietlyAdds (before after : List Event) : Prop :=
  ∃ new, after = before ++ new ∧ new.filterMap Event.emission? = []

theorem quietlyAdds_refl (events : List Event) : QuietlyAdds events events := ⟨[], by simp, rfl⟩

/-! ### The watched stage -/

/-- A deed, and the run just before it was done. -/
structure Note where
  deed : Deed
  before : Machine

/-- What a deed emits. -/
def Deed.emission? : Deed → Option (String × Value)
  | emit label value => some (label, value)
  | _ => none

/-- What the deeds of a record emit. -/
def emissions (notes : List Note) : List (String × Value) := notes.filterMap fun note => note.deed.emission?

/-- The stage that keeps a record of the deeds, the latest last. -/
abbrev Watched := StateT (List Note) (World.M Activity)

instance : Stage Watched where
  change act := StateT.lift act
  perform deed := do
    let before : Machine ← StateT.lift get
    modify fun notes => notes ++ [⟨deed, before⟩]
    StateT.lift deed.run

/-- A watched computation from some run: its result, the record of its deeds, and the run after it. -/
def Watched.watch {α : Type} (x : Watched α) (p : Machine) : (α × List Note) × Machine := (x.run []).run p

/-- In every run in which `P` holds, the plain computation advances the run and emits nothing, and its result
has the property `Q`. -/
def Ensures {α : Type} (S : Activity → Prop) (P : Machine → Prop) (Q : α → Prop) (y : World.M Activity α) :
    Prop :=
  ∀ p, P p → p.Advances S (y.run p).2 ∧ Machine.emitted (y.run p).2 = p.emitted ∧ Q (y.run p).1

/-- In every run in which `P` holds, the watched computation does what the plain one does and adds notes
with the property `N`, taken at later and later moments, which tell all that is emitted; the plain one advances
the run, and its result has the property `Q`. -/
def Shows {α : Type} (S : Activity → Prop) (N : Note → Prop) (P : Machine → Prop) (Q : α → Prop)
    (x : Watched α) (y : World.M Activity α) : Prop :=
  ∀ notes p, P p → ∃ more, (x.run notes).run p = (((y.run p).1, notes ++ more), (y.run p).2) ∧
    (∀ note ∈ more, N note ∧ p.sources.Ages note.before.sources) ∧
    Machine.emitted (y.run p).2 = p.emitted ++ emissions more ∧
    p.Advances S (y.run p).2 ∧ Q (y.run p).1

section Rules

variable {α β : Type} {S : Activity → Prop} {N : Note → Prop} {P P' : Machine → Prop} {Q Q' : α → Prop}
  {R : β → Prop}

/-! ### Plain computations -/

theorem ensures_pure {a : α} (h : Q a) : Ensures S P Q (pure a) := fun p _ => ⟨.refl p, rfl, h⟩

theorem Ensures.bind {y : World.M Activity α} {g : α → World.M Activity β} (hy : Ensures S P Q y)
    (hg : ∀ a, Q a → Ensures S (fun _ => True) R (g a)) : Ensures S P R (y >>= g) := by
  intro p hp
  obtain ⟨hadv, hquiet, hq⟩ := hy p hp
  obtain ⟨hadv', hquiet', hr⟩ := hg _ hq (y.run p).2 trivial
  exact ⟨hadv.trans hadv', hquiet'.trans hquiet, hr⟩

/-- A part whose result does not matter. -/
theorem Ensures.andThen {y : World.M Activity α} {g : α → World.M Activity β}
    (hy : Ensures S P (fun _ => True) y) (hg : ∀ a, Ensures S (fun _ => True) R (g a)) :
    Ensures S P R (y >>= g) :=
  hy.bind fun a _ => hg a

theorem ensures_get : Ensures S P (fun _ => True) (get : World.M Activity Machine) :=
  fun p _ => ⟨.refl p, rfl, trivial⟩

theorem ensures_ite {c : Prop} [Decidable c] {y z : World.M Activity α} (hy : Ensures S P Q y)
    (hz : Ensures S P Q z) : Ensures S P Q (if c then y else z) := by
  split
  · exact hy
  · exact hz

/-- A part that is left out under some condition. -/
theorem ensures_when {c : Prop} [Decidable c] {y : World.M Activity Unit} {g : Unit → World.M Activity α}
    (hy : Ensures S P (fun _ => True) y) (hg : ∀ P, Ensures S P Q (g ())) :
    Ensures S P Q (if c then y >>= g else g ()) :=
  ensures_ite (hy.andThen fun _ => hg _) (hg P)

theorem ensures_update {f : World → World}
    (hevents : ∀ w : World, QuietlyAdds w.executor.events.events (f w).executor.events.events)
    (hcompletions : ∀ w : World, w.campaign.completions <+: (f w).campaign.completions) :
    Ensures S P (fun _ => True) (Scheduler.update f : World.M Activity Unit) := by
  intro p _
  obtain ⟨new, hnew, hquiet⟩ := hevents p.shared
  refine ⟨.of_shared (hnew ▸ List.prefix_append _ new) (hcompletions p.shared), ?_, trivial⟩
  change ((f p.shared).executor.events.events).filterMap Event.emission? = _
  rw [hnew, List.filterMap_append, hquiet, List.append_nil]
  rfl

theorem ensures_serve (call : ServiceCall) : Ensures S P (fun _ => True) (World.serve call) :=
  ensures_update (fun _ => quietlyAdds_refl _) fun _ => List.prefix_refl _

theorem ensures_emit {e : Event} (he : e.emission? = none) : Ensures S P (fun _ => True) (World.emit e) :=
  ensures_update (fun _ => ⟨[e], rfl, by simp [he]⟩) fun _ => List.prefix_refl _

theorem ensures_updateHosts (f : Hosts → Hosts) : Ensures S P (fun _ => True) (World.updateHosts f) :=
  ensures_update (fun _ => quietlyAdds_refl _) fun _ => List.prefix_refl _

theorem ensures_setHp (hp : Float) : Ensures S P (fun _ => True) (World.setHp hp : World.M Activity Unit) :=
  ensures_update (fun _ => quietlyAdds_refl _) fun _ => List.prefix_refl _

theorem ensures_updateCampaign {f : Campaign → Campaign}
    (h : ∀ c : Campaign, c.completions <+: (f c).completions) :
    Ensures S P (fun _ => True) (World.updateCampaign f) :=
  ensures_update (fun _ => quietlyAdds_refl _) fun w => h w.campaign

/-- A change of the executor that keeps its events. -/
theorem ensures_updateExecutor {f : Executor → Executor}
    (h : ∀ e : Executor, (f e).events = e.events) :
    Ensures S P (fun _ => True) (World.updateExecutor f) :=
  ensures_update (fun w => ⟨[], by rw [List.append_nil, ← h w.executor], rfl⟩) fun _ => List.prefix_refl _

theorem ensures_spawn {task : Activity} (h : S task) :
    Ensures S P (fun _ => True) (Scheduler.spawn task : World.M Activity Unit) :=
  fun _ _ => ⟨.of_spawn h, rfl, trivial⟩

theorem ensures_cancel (source : Nat) :
    Ensures S P (fun _ => True) (Scheduler.cancel source : World.M Activity Unit) :=
  fun p _ => ⟨.of_sources (Sources.ages_finish _ source p.sources), rfl, trivial⟩

theorem ensures_expire (source : Nat) :
    Ensures S P (fun _ => True) (Scheduler.expire source : World.M Activity Unit) :=
  fun p _ => ⟨.of_sources (Sources.ages_finish _ source p.sources), rfl, trivial⟩

theorem ensures_makeSource : Ensures S P (fun _ => True) (Scheduler.makeSource : World.M Activity Nat) :=
  fun p _ => ⟨.of_sources (Sources.ages_make p.sources), rfl, trivial⟩

theorem ensures_cancelPhase : Ensures S P (fun _ => True) (World.cancelPhase : World.M Activity Bool) := by
  refine ensures_get.andThen fun p => ?_
  cases p.shared.executor.shifter with
  | none => exact ensures_pure trivial
  | some source => exact (ensures_cancel source).andThen fun _ => ensures_pure trivial

theorem ensures_shiftPhase : Ensures S P (fun _ => True) (World.shiftPhase : World.M Activity Bool) :=
  ensures_cancelPhase.andThen fun _ => ensures_when (ensures_emit rfl) fun _ => ensures_pure trivial

/-- The same for every member of a list. -/
theorem ensures_forM {γ : Type} {xs : List γ} {f : γ → World.M Activity Unit}
    (h : ∀ a ∈ xs, Ensures S (fun _ => True) (fun _ => True) (f a)) :
    Ensures S P (fun _ => True) (xs.forM f) := by
  induction xs generalizing P with
  | nil => exact ensures_pure trivial
  | cons a rest ih =>
    have hfirst : Ensures S P (fun _ => True) (f a) := fun p _ => h a List.mem_cons_self p trivial
    exact hfirst.andThen fun _ => ih fun b hb => h b (List.mem_cons_of_mem a hb)

/-- Computations that only look at the run. -/
theorem ensures_look {y : World.M Activity α} (h : ∀ p, (y.run p).2 = p) : Ensures S P (fun _ => True) y :=
  fun p _ => ⟨by rw [h p]; exact .refl p, by rw [h p], trivial⟩

/-! ### Watched computations -/

theorem emissions_append (notes more : List Note) : emissions (notes ++ more) = emissions notes ++ emissions more :=
  List.filterMap_append

theorem Shows.mono {x : Watched α} {y : World.M Activity α} (h : Shows S N P Q x y)
    (hP : ∀ p, P' p → P p) (hQ : ∀ a, Q a → Q' a) : Shows S N P' Q' x y := by
  intro notes p hp
  obtain ⟨more, hrun, hmore, hsaid, hadv, hq⟩ := h notes p (hP p hp)
  exact ⟨more, hrun, hmore, hsaid, hadv, hQ _ hq⟩

theorem shows_pure {a : α} (h : Q a) : Shows S N P Q (pure a) (pure a) :=
  fun notes p _ => ⟨[], by rw [List.append_nil]; rfl, by simp, (List.append_nil _).symm, .refl p, h⟩

theorem Shows.bind {x : Watched α} {y : World.M Activity α} {f : α → Watched β} {g : α → World.M Activity β}
    (hx : Shows S N P Q x y) (hf : ∀ a, Q a → Shows S N (fun _ => True) R (f a) (g a)) :
    Shows S N P R (x >>= f) (y >>= g) := by
  intro notes p hp
  obtain ⟨more, hrun, hmore, hsaid, hadv, hq⟩ := hx notes p hp
  obtain ⟨more', hrun', hmore', hsaid', hadv', hr⟩ := hf _ hq (notes ++ more) (y.run p).2 trivial
  refine ⟨more ++ more', ?_, fun note hnote => ?_, ?_, hadv.trans hadv', hr⟩
  · have hbind : ((x >>= f).run notes).run p =
        ((f ((x.run notes).run p).1.1).run ((x.run notes).run p).1.2).run ((x.run notes).run p).2 := rfl
    rw [hbind, hrun, hrun', List.append_assoc]
    rfl
  · rcases List.mem_append.1 hnote with hnote | hnote
    · exact hmore note hnote
    · exact ⟨(hmore' note hnote).1, hadv.sources.trans (hmore' note hnote).2⟩
  · rw [emissions_append, ← List.append_assoc, ← hsaid]
    exact hsaid'

theorem shows_change {y : World.M Activity α} (hy : Ensures S P Q y) :
    Shows S N P Q (Stage.change y) (Stage.change y) := by
  intro notes p hp
  obtain ⟨hadv, hquiet, hq⟩ := hy p hp
  exact ⟨[], by rw [List.append_nil]; rfl, by simp, hquiet.trans (List.append_nil _).symm, hadv, hq⟩

/-- A deed that emits nothing. -/
theorem shows_perform {deed : Deed} {Q : deed.Answer → Prop} (hdeed : deed.emission? = none)
    (hN : ∀ p, P p → N ⟨deed, p⟩) (hy : Ensures S P Q deed.run) :
    Shows S N P Q (Stage.perform deed) (Stage.perform deed) := by
  intro notes p hp
  obtain ⟨hadv, hquiet, hq⟩ := hy p hp
  refine ⟨[⟨deed, p⟩], rfl, by simpa using ⟨hN p hp, .refl _⟩, ?_, hadv, hq⟩
  have hnone : emissions [⟨deed, p⟩] = [] := by simp [emissions, hdeed]
  rw [hnone, List.append_nil]
  exact hquiet

theorem shows_emit {label : String} {value : Value} (hN : ∀ p, P p → N ⟨.emit label value, p⟩) :
    Shows S N P (fun _ => True) (Stage.perform (.emit label value)) (Stage.perform (.emit label value)) := by
  intro notes p hp
  refine ⟨[⟨.emit label value, p⟩], rfl, by simpa using ⟨hN p hp, .refl _⟩, ?_, ?_, trivial⟩
  · exact List.filterMap_append
  · exact .of_shared (List.prefix_append _ _) (List.prefix_refl _)

/-- An evaluation changes no source, so that what is live before it is live after it. -/
theorem shows_evaluate {T : CancelToken} {c : Callable} {f : Except MachineError Value → Watched β}
    {g : Except MachineError Value → World.M Activity β}
    (hN : ∀ p : Machine, ¬ T.isCancelled p.sources → N ⟨.evaluate c, p⟩)
    (hf : ∀ a, Shows S N (fun p => ¬ T.isCancelled p.sources) R (f a) (g a)) :
    Shows S N (fun p => ¬ T.isCancelled p.sources) R (Stage.perform (.evaluate c) >>= f)
      (Stage.perform (.evaluate c) >>= g) := by
  intro notes p hp
  have hinvoke : p.Advances S ((World.invoke c).run p).2 := .of_shared (List.prefix_refl _) (List.prefix_refl _)
  obtain ⟨more, hrun, hmore, hsaid, hadv, hr⟩ :=
    hf ((World.invoke c).run p).1 (notes ++ [⟨.evaluate c, p⟩]) ((World.invoke c).run p).2 hp
  refine ⟨⟨.evaluate c, p⟩ :: more, ?_, ?_, hsaid, hinvoke.trans hadv, hr⟩
  · have hbind : ((Stage.perform (.evaluate c) >>= f).run notes).run p =
        ((f ((World.invoke c).run p).1).run (notes ++ [⟨.evaluate c, p⟩])).run
          ((World.invoke c).run p).2 := rfl
    rw [hbind, hrun, List.append_assoc]
    rfl
  · intro note hnote
    rcases List.mem_cons.1 hnote with rfl | hnote
    · exact ⟨hN p hp, .refl _⟩
    · exact hmore note hnote

/-- What is done behind a token is done while everything that the token includes is live. -/
theorem shows_unlessCancelled {T token : CancelToken} (htoken : token.Includes T)
    {x : Step Watched} {y : Step (World.M Activity)} {Q : Turn Activity → Prop} (hQ : Q .cancelled)
    (hx : Shows S N (fun p => ¬ T.isCancelled p.sources) Q x y) :
    Shows S N P Q (Step.unlessCancelled token x) (Step.unlessCancelled token y) := by
  intro notes p _
  have hw : ((Step.unlessCancelled token x).run notes).run p =
      ((if token.isCancelled p.sources then pure .cancelled else x : Watched _).run notes).run p := rfl
  have hp : (Step.unlessCancelled token y).run p =
      (if token.isCancelled p.sources then pure .cancelled else y : World.M Activity _).run p := rfl
  rw [hw, hp]
  cases htok : token.isCancelled p.sources with
  | true =>
    exact shows_pure (P := fun _ => True) hQ notes p trivial
  | false =>
    refine hx notes p fun hT => ?_
    simp [htoken.isCancelled hT] at htok

/-- What a watched computation tells of the plain one. -/
theorem Shows.watch {x : Watched α} {y : World.M Activity α} (h : Shows S N P Q x y) {p : Machine} (hp : P p) :
    (x.watch p).1.1 = (y.run p).1 ∧ (x.watch p).2 = (y.run p).2 ∧
      (∀ note ∈ (x.watch p).1.2, N note ∧ p.sources.Ages note.before.sources) ∧
      Machine.emitted (y.run p).2 = p.emitted ++ emissions (x.watch p).1.2 := by
  obtain ⟨more, hrun, hmore, hsaid, -, -⟩ := h [] p hp
  rw [Watched.watch, hrun]
  exact ⟨rfl, rfl, by simpa using hmore, hsaid⟩

theorem Shows.advances {x : Watched α} {y : World.M Activity α} (h : Shows S N P Q x y) {p : Machine}
    (hp : P p) : p.Advances S (y.run p).2 ∧ Q (y.run p).1 := by
  obtain ⟨-, -, -, -, hadv, hq⟩ := h [] p hp
  exact ⟨hadv, hq⟩

end Rules

end Barrage
