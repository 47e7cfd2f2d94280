import Barrage.Proofs.Machine.PlainTurns

/-!
# Bystanders

While a phase runs, other tasks take their turns in the same frames. Most of them have nothing to do with it:
they wait, emit, evaluate expressions and detach trees of their own, and all that they can change is the host
objects, the events that do not tell of phases, and the tasks that are spawned. A tree without phases, patterns
and cuts is such a bystander, and so are the task that lets time pass for the timers, and the one that watches the
time of some other phase. A cut ends the source of the running phase; for whom that does not matter, a tree with
cuts is a bystander as well.

## Main definitions

* `Node.Phaseless`: trees without phases and patterns, and without cuts that matter for a token
* `Activity.Apart`: activities that have nothing to do with whatever depends on a token
* `Activity.ApartFor`: the same for some frames, since the time that a task watches is not up before
* `Machine.Spares`: what a turn of a bystander leaves alone

## Main results

* `Activity.sparing_turn`: the turn of a bystander
* `Machine.Round.bystanders`: bystanders take their turns in a frame
-/

namespace Barrage

/-! ### Trees and tasks -/

/-- Trees without phases and patterns. They may cut the running phase only if the token depends on nothing. -/
inductive Node.Phaseless (J : CancelToken) : Node Callable → Prop
  | action {wait : Float} {blocking : Bool} {children : List (Node Callable)}
    (h : ∀ child ∈ children, Node.Phaseless J child) : Node.Phaseless J (.action wait blocking children)
  | sequence {wait : Float} {children : List (Node Callable)} (h : ∀ child ∈ children, Node.Phaseless J child) :
    Node.Phaseless J (.sequence wait children)
  | endBlock {wait : Float} {blocking : Bool} {children : List (Node Callable)}
    (h : ∀ child ∈ children, Node.Phaseless J child) : Node.Phaseless J (.endBlock wait blocking children)
  | finish {child : Node Callable} (h : Node.Phaseless J child) : Node.Phaseless J (.finish child)
  | leaf {act : Leaf Callable} (h : act = .shiftPhase → J.sources = []) : Node.Phaseless J (.leaf act)

/-- What follows has nothing to do with phases, and ends no source of a token. -/
def Continuation.Apart (J : CancelToken) : Continuation → Prop
  | sequence rest _ => ∀ node ∈ rest, node.Phaseless J
  | spread _ children _ => ∀ node ∈ children, node.Phaseless J
  | hold _ _ => True
  | expire source => source ∉ J.sources
  | advanceTimers _ => True
  | report => True
  | _ => False

/-- Activities that have nothing to do with phases, and end no source of a token. -/
inductive Activity.Apart (J : CancelToken) : Activity → Prop
  | start {node : Node Callable} {token : CancelToken} (h : node.Phaseless J) : Activity.Apart J (.start node token)
  | wait {pause : Wait Callable} : Activity.Apart J (.wait pause)
  | andThen {first : Activity} {next : Continuation} (hfirst : Activity.Apart J first) (hnext : next.Apart J) :
    Activity.Apart J (.andThen first next)
  | join {parts : List Activity} (h : ∀ part ∈ parts, Activity.Apart J part) : Activity.Apart J (.join parts)
  | stuck : Activity.Apart J .stuck

/-- Tasks that have nothing to do with phases, and end no source of a token for so many frames: the time that they
watch, if they watch any, is not up before. -/
inductive Activity.ApartFor (J : CancelToken) (frames : Nat) : Activity → Prop
  | apart {a : Activity} (h : a.Apart J) : Activity.ApartFor J frames a
  | timer {left source : Nat} {token : CancelToken} (h : frames ≤ left) :
    Activity.ApartFor J frames (.andThen (.wait (.frames left token)) (.expire source))

section

variable {E : Callable → Prop} {F : Forecast} {T J : CancelToken}

theorem Node.Plain.phaseless {node : Node Callable} (h : node.Plain E F) : node.Phaseless J := by
  induction h with
  | action _ _ ih => exact .action ih
  | sequence _ ih => exact .sequence ih
  | endBlock _ _ ih => exact .endBlock ih
  | finish _ ih => exact .finish ih
  | leaf h => exact .leaf fun heq => by rw [heq] at h; exact h.elim

theorem Activity.Plain.apart {a : Activity} (h : a.Plain E F T) : a.Apart J := by
  induction h with
  | start h => exact .start h.phaseless
  | frames => exact .wait
  | «until» _ _ => exact .wait
  | cancelled => exact .wait
  | @andThen first next _ hnext ih =>
    refine .andThen ih ?_
    cases next with
    | sequence rest token => exact fun node hnode => (hnext.2 node hnode).phaseless
    | spread blocking children token => exact fun node hnode => (hnext.2.2 node hnode).phaseless
    | hold stays token => trivial
    | _ => exact hnext.elim
  | join _ _ ih => exact .join ih

end

/-! ### What bystanders leave alone -/

/-- Sources on which a token depends are as they were. -/
def CancelToken.Agrees (J : CancelToken) (s t : Sources) : Prop :=
  ∀ source ∈ J.sources, t.states[source]? = s.states[source]?

/-- Whether an event tells of the start or the end of a phase. -/
def Event.isOfPhase : Event → Bool
  | phaseStarted _ _ => true
  | phaseEnded _ _ => true
  | _ => false

/-- The starts and ends of phases that were told and not yet taken out. -/
def Machine.phaseEvents (p : Machine) : List Event := p.shared.executor.events.events.filter Event.isOfPhase

/-- A part of a frame that leaves alone whatever depends on a token: the clock, the executor with its running phase,
what is told and written down of phases, and the sources. -/
structure Machine.Spares (J : CancelToken) (p q : Machine) : Prop where
  clock : q.clock = p.clock
  executor : q.shared.executor = { p.shared.executor with events := q.shared.executor.events }
  phaseEvents : q.phaseEvents = p.phaseEvents
  campaign : q.shared.campaign = p.shared.campaign
  bufferFrames : q.shared.bufferFrames = p.shared.bufferFrames
  sources : J.Agrees p.sources q.sources

namespace CancelToken

variable {J : CancelToken} {s t u : Sources}

theorem Agrees.refl (J : CancelToken) (s : Sources) : J.Agrees s s := fun _ _ => rfl

theorem Agrees.trans (hst : J.Agrees s t) (htu : J.Agrees t u) : J.Agrees s u :=
  fun source hsource => (htu source hsource).trans (hst source hsource)

theorem Agrees.isCancelled_source (h : J.Agrees s t) {source : Nat} (hsource : source ∈ J.sources) :
    t.isCancelled source = s.isCancelled source := by
  rw [Sources.isCancelled, Sources.isCancelled, h source hsource]

theorem Agrees.isExpired_source (h : J.Agrees s t) {source : Nat} (hsource : source ∈ J.sources) :
    t.isExpired source = s.isExpired source := by
  rw [Sources.isExpired, Sources.isExpired, h source hsource]

theorem Agrees.isCancelled (h : J.Agrees s t) : J.isCancelled t = J.isCancelled s := by
  rw [Bool.eq_iff_iff, isCancelled_iff, isCancelled_iff]
  refine exists_congr fun source => and_congr_right fun hsource => ?_
  rw [h.isCancelled_source hsource]

end CancelToken

namespace Machine.Spares

variable {J : CancelToken} {p q r : Machine}

theorem refl (J : CancelToken) (p : Machine) : p.Spares J p := ⟨rfl, rfl, rfl, rfl, rfl, .refl J _⟩

theorem trans (hpq : p.Spares J q) (hqr : q.Spares J r) : p.Spares J r where
  clock := hqr.clock.trans hpq.clock
  executor := by rw [hqr.executor, hpq.executor]
  phaseEvents := hqr.phaseEvents.trans hpq.phaseEvents
  campaign := hqr.campaign.trans hpq.campaign
  bufferFrames := hqr.bufferFrames.trans hpq.bufferFrames
  sources := hpq.sources.trans hqr.sources

theorem shifter (h : p.Spares J q) : q.shared.executor.shifter = p.shared.executor.shifter := by rw [h.executor]

theorem completions (h : p.Spares J q) : q.shared.campaign.completions = p.shared.campaign.completions := by
  rw [h.campaign]

/-- A change of the sources and of what is shared. -/
theorem of_shared {w : World} {sources : Sources}
    (hexecutor : w.executor = { p.shared.executor with events := w.executor.events })
    (hevents : w.executor.events.events.filter Event.isOfPhase = p.phaseEvents)
    (hcampaign : w.campaign = p.shared.campaign) (hbuffer : w.bufferFrames = p.shared.bufferFrames)
    (hsources : J.Agrees p.sources sources) : p.Spares J { p with shared := w, sources := sources } :=
  ⟨rfl, hexecutor, hevents, hcampaign, hbuffer, hsources⟩

end Machine.Spares

/-- A computation that spares whatever depends on a token and spawns bystanders, and whose result has the property
`Q`. -/
def Sparing {α : Type} (J : CancelToken) (Q : α → Prop) (y : World.M Activity α) : Prop :=
  ∀ p : Machine, p.Spares J (y.run p).2 ∧ (∃ new, (y.run p).2.spawned = p.spawned ++ new ∧ ∀ a ∈ new, a.Apart J) ∧
    Q (y.run p).1

/-- A turn that spares whatever depends on a token and leaves a bystander. -/
abbrev SparingTurn (J : CancelToken) (y : Step (World.M Activity)) : Prop :=
  Sparing J (Turn.Leaves (Activity.Apart J)) y

/-- The same for parts that go on side by side. -/
abbrev SparingParts (J : CancelToken) (y : World.M Activity (Except MachineError (List Activity))) : Prop :=
  Sparing J (LeavesParts (Activity.Apart J)) y

section Rules

variable {α β : Type} {J : CancelToken} {Q : α → Prop} {R : β → Prop}

theorem sparing_pure {a : α} (h : Q a) : Sparing J Q (pure a) := fun p =>
  ⟨.refl J p, ⟨[], (List.append_nil _).symm, by simp⟩, h⟩

theorem Sparing.bind {y : World.M Activity α} {g : α → World.M Activity β} (hy : Sparing J Q y)
    (hg : ∀ a, Q a → Sparing J R (g a)) : Sparing J R (y >>= g) := by
  intro p
  obtain ⟨hspares, ⟨new, hnew, hapart⟩, hq⟩ := hy p
  obtain ⟨hspares', ⟨more, hmore, hapart'⟩, hr⟩ := hg _ hq (y.run p).2
  refine ⟨hspares.trans hspares', ⟨new ++ more, ?_, fun a ha => ?_⟩, hr⟩
  · rw [← List.append_assoc, ← hnew]
    exact hmore
  · exact (List.mem_append.1 ha).elim (hapart a) (hapart' a)

/-- A part whose result does not matter. -/
theorem Sparing.andThen {y : World.M Activity α} {g : α → World.M Activity β} (hy : Sparing J (fun _ => True) y)
    (hg : ∀ a, Sparing J R (g a)) : Sparing J R (y >>= g) := hy.bind fun a _ => hg a

/-- Computations that only look at the run. -/
theorem sparing_look {y : World.M Activity α} (h : ∀ p, (y.run p).2 = p) : Sparing J (fun _ => True) y :=
  fun p => ⟨by rw [h p]; exact .refl J p, ⟨[], by rw [h p]; simp⟩, trivial⟩

/-- Changes of what is shared that keep the executor, and what is told and written down of phases. -/
theorem sparing_update {f : World → World}
    (hexecutor : ∀ w : World, (f w).executor = { w.executor with events := (f w).executor.events })
    (hevents : ∀ w : World, (f w).executor.events.events.filter Event.isOfPhase =
      w.executor.events.events.filter Event.isOfPhase)
    (hcampaign : ∀ w : World, (f w).campaign = w.campaign)
    (hbuffer : ∀ w : World, (f w).bufferFrames = w.bufferFrames) :
    Sparing J (fun _ => True) (Scheduler.update f : World.M Activity Unit) :=
  fun p => ⟨.of_shared (hexecutor p.shared) (hevents p.shared) (hcampaign p.shared) (hbuffer p.shared) (.refl J _),
    ⟨[], (List.append_nil _).symm, by simp⟩, trivial⟩

theorem sparing_emit {e : Event} (he : e.isOfPhase = false) :
    Sparing J (fun _ => True) (World.emit e : World.M Activity Unit) :=
  sparing_update (fun _ => rfl)
    (fun w => by
      change (w.executor.events.events ++ [e]).filter Event.isOfPhase = _
      rw [List.filter_append, List.filter_cons_of_neg (by simp [he]), List.filter_nil, List.append_nil])
    (fun _ => rfl) fun _ => rfl

/-- The end of a source that does not matter for the token. -/
theorem agrees_finish {source : Nat} (state : SourceState) (h : source ∉ J.sources) (s : Sources) :
    J.Agrees s (s.finish state source) := by
  refine fun other hother => (Sources.getElem?_finish state source other s).trans (if_neg fun heq => h ?_)
  rw [heq]
  exact hother

theorem sparing_finish {source : Nat} (h : source ∉ J.sources) (state : SourceState) :
    Sparing J (fun _ => True)
      (modify fun s => { s with sources := s.sources.finish state source } : World.M Activity Unit) :=
  fun p => ⟨.of_shared rfl rfl rfl rfl (agrees_finish state h p.sources), ⟨[], (List.append_nil _).symm, by simp⟩,
    trivial⟩

theorem sparing_cancelPhase (h : J.sources = []) :
    Sparing J (fun _ => True) (World.cancelPhase : World.M Activity Bool) := by
  refine (sparing_look fun _ => rfl : Sparing J (fun _ => True) (get : World.M Activity Machine)).andThen fun p => ?_
  cases p.shared.executor.shifter with
  | none => exact sparing_pure trivial
  | some source =>
    have hsource : source ∉ J.sources := h ▸ List.not_mem_nil
    exact Sparing.andThen (sparing_finish hsource .cancelled) fun _ => sparing_pure trivial

theorem sparing_shiftPhase (h : J.sources = []) :
    Sparing J (fun _ => True) (World.shiftPhase : World.M Activity Bool) := by
  refine (sparing_cancelPhase h).andThen fun running => ?_
  cases running with
  | true => exact (sparing_emit rfl).andThen fun _ => sparing_pure trivial
  | false => exact sparing_pure trivial

theorem sparing_detach {children : List (Node Callable)} {token : CancelToken}
    (h : ∀ child ∈ children, child.Phaseless J) :
    Sparing J (fun _ => True) (children.forM (Node.detach token)) := by
  induction children with
  | nil => exact sparing_pure trivial
  | cons node rest ih =>
    have hnode : Sparing J (fun _ => True) (Node.detach token node) := fun p =>
      ⟨⟨rfl, rfl, rfl, rfl, rfl, .refl J _⟩,
        ⟨[.start node token], rfl, by simpa using .start (h node List.mem_cons_self)⟩, trivial⟩
    exact hnode.andThen fun _ => ih fun child hchild => h child (List.mem_cons_of_mem node hchild)

/-! ### Parts of turns -/

theorem sparing_done (answer : Except MachineError Unit) : SparingTurn J (pure (.done answer)) :=
  sparing_pure trivial

theorem sparing_onSuccess {y : Step (World.M Activity)} (h : SparingTurn J y) (answer : Except MachineError Unit) :
    SparingTurn J (Step.onSuccess y answer) :=
  match answer with
  | .ok () => h
  | .error _ => sparing_done _

theorem sparing_unlessCancelled {token : CancelToken} {y : Step (World.M Activity)} (h : SparingTurn J y) :
    SparingTurn J (Step.unlessCancelled token y) := by
  refine (sparing_look fun _ => rfl : Sparing J (fun _ => True) (Step.isCancelled token)).andThen fun cancelled => ?_
  cases cancelled with
  | true => exact sparing_done _
  | false => exact h

theorem sparing_evaluate {c : Callable} {g : Except MachineError Value → World.M Activity α}
    (h : ∀ answer, Sparing J Q (g answer)) : Sparing J Q (Stage.perform (.evaluate c) >>= g) := by
  have hinvoke : Sparing J (fun _ => True) (World.invoke c) := fun p =>
    ⟨⟨rfl, rfl, rfl, rfl, rfl, .refl J _⟩, ⟨[], (List.append_nil _).symm, by simp⟩, trivial⟩
  exact hinvoke.andThen h

/-- A part that is over goes on, and one that is not keeps what follows. -/
theorem sparing_followedBy {turn : Turn Activity} {next : Continuation} {go : AnswerStep (World.M Activity)}
    (hturn : turn.Leaves (Activity.Apart J)) (hnext : next.Apart J) (hgo : ∀ answer, SparingTurn J (go answer)) :
    SparingTurn J (turn.followedBy next go) :=
  match turn with
  | .done answer => hgo answer
  | .waiting _ => sparing_pure (.andThen hturn hnext)

theorem sparing_wait (pause : Wait Callable) : SparingTurn J pause.step := by
  rw [Wait.step_eq]
  refine sparing_unlessCancelled ?_
  cases pause with
  | frames left token =>
    cases left with
    | zero => exact sparing_pure trivial
    | succ left => exact sparing_pure .wait
  | «until» condition token =>
    simp only [Wait.liveTurn, Callable.holds, bind_assoc]
    refine sparing_evaluate fun answer => ?_
    cases answer with
    | error e => exact sparing_pure trivial
    | ok value =>
      dsimp only
      rcases value.asBool? with - | - | -
      · exact sparing_pure trivial
      · exact sparing_pure .wait
      · exact sparing_pure trivial
  | cancelled token => exact sparing_pure .wait

theorem sparing_delayed (seconds : Float) (token : CancelToken) : SparingTurn J (delayed seconds token) :=
  (sparing_look fun _ => rfl).andThen fun _ => sparing_wait _

theorem sparing_leafStart {act : Leaf Callable} (hact : act = .shiftPhase → J.sources = []) (token : CancelToken) :
    SparingTurn J (act.start token) := by
  refine sparing_unlessCancelled ?_
  cases act with
  | wait seconds =>
    refine sparing_evaluate fun answer => ?_
    cases answer with
    | error e => exact sparing_done _
    | ok value =>
      dsimp only
      cases value.asFloat? with
      | none => exact sparing_done _
      | some seconds => exact sparing_delayed seconds token
  | waitUntil condition => exact sparing_wait _
  | emit label value =>
    refine sparing_evaluate fun answer => ?_
    cases answer with
    | error e => exact sparing_done _
    | ok value =>
      exact Sparing.andThen (sparing_emit rfl) fun _ => sparing_done _
  | shiftPhase =>
    exact Sparing.andThen (sparing_shiftPhase (hact rfl)) fun _ => sparing_unlessCancelled (sparing_done _)

theorem sparing_ofParts {answer : Except MachineError (List Activity)}
    (h : LeavesParts (Activity.Apart J) answer) : SparingTurn J (pure (.ofParts answer)) := by
  match answer, h with
  | .error _, _ => exact sparing_done _
  | .ok [], _ => exact sparing_done _
  | .ok (part :: rest), h => exact sparing_pure (.join h)

theorem sparing_collect {turn : Turn Activity} {others : World.M Activity (Except MachineError (List Activity))}
    (hturn : turn.Leaves (Activity.Apart J)) (h : SparingParts J others) :
    SparingParts J (turn.collect others) := by
  match turn, hturn with
  | .done (.error _), _ => exact sparing_pure trivial
  | .done (.ok ()), _ => exact h
  | .waiting part, hpart =>
    refine h.bind fun answer hanswer => sparing_pure ?_
    match answer, hanswer with
    | .error _, _ => trivial
    | .ok rest, hrest => exact fun a ha => (List.mem_cons.1 ha).elim (· ▸ hpart) (hrest a)

theorem sparing_together {blocking : Bool} {children : List (Node Callable)} {token : CancelToken}
    {parts : World.M Activity (Except MachineError (List Activity))} {many : Step (World.M Activity)}
    (h : ∀ child ∈ children, child.Phaseless J) (hparts : SparingParts J parts) (hmany : SparingTurn J many) :
    SparingTurn J (Node.together blocking children token parts many) := by
  unfold Node.together
  split
  · split
    · exact hparts.bind fun _ hanswer => sparing_ofParts hanswer
    · exact hmany
  · exact (sparing_detach h).andThen fun _ => sparing_done _

end Rules

/-! ### Turns of bystanders -/

section Turns

variable {J : CancelToken}

mutual

/-- The first turn of a tree without phases. -/
theorem sparing_nodeStart : (node : Node Callable) → node.Phaseless J → (token : CancelToken) →
    SparingTurn J (node.start token)
  | .action wait blocking children, h, token => by
    cases h with
    | action h =>
      rw [Node.start]
      refine (sparing_delayed wait token).bind fun turn hturn => sparing_followedBy hturn h fun answer => ?_
      exact sparing_onSuccess (sparing_together h (sparing_startParts children h token)
        (sparing_startMany children true h token)) answer
  | .sequence wait children, h, token => by
    cases h with
    | sequence h =>
      rw [Node.start]
      refine (sparing_delayed wait token).bind fun turn hturn => sparing_followedBy hturn h fun answer => ?_
      exact sparing_onSuccess (sparing_startInTurn children h token) answer
  | .endBlock wait blocking children, h, token => by
    cases h with
    | endBlock h =>
      rw [Node.start]
      refine (sparing_delayed wait token).bind fun turn hturn => sparing_followedBy hturn h fun answer => ?_
      exact sparing_onSuccess (sparing_together h (sparing_startParts children h token)
        (sparing_startMany children true h token)) answer
  | .finish child, h, token => by
    cases h with
    | finish h =>
      rw [Node.start]
      exact sparing_nodeStart child h token
  | .leaf act, h, token => by
    cases h with
    | leaf h =>
      rw [Node.start]
      exact sparing_leafStart h token
  | .pattern _ _, h, _ => by cases h
  | .phase _, h, _ => by cases h

theorem sparing_startInTurn : (children : List (Node Callable)) → (∀ child ∈ children, child.Phaseless J) →
    (token : CancelToken) → SparingTurn J (Node.startInTurn children token)
  | [], _, token => by
    rw [Node.startInTurn]
    exact sparing_done _
  | node :: rest, h, token => by
    rw [Node.startInTurn]
    have hrest := fun child hchild => h child (List.mem_cons_of_mem node hchild)
    refine (sparing_nodeStart node (h node List.mem_cons_self) token).bind fun turn hturn => ?_
    exact sparing_followedBy hturn hrest fun answer =>
      sparing_onSuccess (sparing_startInTurn rest hrest token) answer

theorem sparing_startParts : (children : List (Node Callable)) → (∀ child ∈ children, child.Phaseless J) →
    (token : CancelToken) → SparingParts J (Node.startParts children token)
  | [], _, token => by
    rw [Node.startParts]
    exact sparing_pure (by simp [LeavesParts])
  | node :: rest, h, token => by
    rw [Node.startParts]
    refine (sparing_nodeStart node (h node List.mem_cons_self) token).bind fun turn hturn => ?_
    exact sparing_collect hturn
      (sparing_startParts rest (fun child hchild => h child (List.mem_cons_of_mem node hchild)) token)

theorem sparing_startMany : (children : List (Node Callable)) → (finished : Bool) →
    (∀ child ∈ children, child.Phaseless J) → (token : CancelToken) →
    SparingTurn J (Node.startMany finished children token)
  | [], finished, _, token => by
    rw [Node.startMany]
    cases finished with
    | true => exact sparing_done _
    | false => exact sparing_pure .stuck
  | node :: rest, finished, h, token => by
    rw [Node.startMany]
    have hrest := fun child hchild => h child (List.mem_cons_of_mem node hchild)
    refine (sparing_nodeStart node (h node List.mem_cons_self) token).bind fun turn _ => ?_
    match turn with
    | .done (.ok ()) => exact sparing_startMany rest finished hrest token
    | .done (.error e) =>
      cases finished with
      | true => exact sparing_done _
      | false => exact sparing_startMany rest false hrest token
    | .waiting _ => exact sparing_startMany rest false hrest token

end

/-- The turn after a part of a bystander that is over. -/
theorem sparing_apply {next : Continuation} (h : next.Apart J) (answer : Except MachineError Unit) :
    SparingTurn J (next.apply answer) := by
  cases next with
  | sequence rest token => exact sparing_onSuccess (sparing_startInTurn rest h token) answer
  | spread blocking children token =>
    exact sparing_onSuccess (sparing_together h (sparing_startParts children h token)
      (sparing_startMany children true h token)) answer
  | hold stays token =>
    refine sparing_onSuccess ?_ answer
    cases stays with
    | true => exact sparing_wait _
    | false => exact sparing_unlessCancelled (sparing_done _)
  | expire source =>
    exact sparing_onSuccess (Sparing.andThen (sparing_finish h .expired) fun _ => sparing_done _) answer
  | advanceTimers token =>
    have hpass : Sparing J (fun _ => True) World.passFrame :=
      (sparing_look fun _ => rfl).andThen fun _ =>
        sparing_update (fun _ => rfl) (fun _ => rfl) (fun _ => rfl) fun _ => rfl
    refine sparing_onSuccess (hpass.andThen fun _ => ?_) answer
    refine (sparing_wait (.frames 1 token)).bind fun turn hturn => ?_
    have hnext : (Continuation.advanceTimers token).Apart J := h
    exact sparing_followedBy hturn hnext fun answer => sparing_done answer
  | report =>
    have hkeep : Sparing J (fun _ => True) (World.keepOutcome answer) :=
      sparing_update (fun _ => rfl) (fun _ => rfl) (fun _ => rfl) fun _ => rfl
    exact hkeep.andThen fun _ => sparing_done answer
  | _ => exact h.elim

mutual

/-- The turn of a bystander. -/
theorem Activity.sparing_turn : (a : Activity) → a.Apart J → SparingTurn J a.turn
  | .start node token, h => by
    cases h with
    | start h =>
      rw [Activity.turn]
      exact sparing_nodeStart node h token
  | .wait pause, _ => by
    rw [Activity.turn]
    exact sparing_wait pause
  | .andThen first next, .andThen hfirst hnext => by
    rw [Activity.turn]
    refine (Activity.sparing_turn first hfirst).bind fun turn hturn => ?_
    exact sparing_followedBy hturn hnext (sparing_apply hnext)
  | .join parts, .join h => by
    rw [Activity.turn]
    exact (Activity.sparing_turnParts parts h).bind fun _ hanswer => sparing_ofParts hanswer
  | .stuck, _ => by
    rw [Activity.turn]
    exact sparing_pure .stuck

/-- The turns of bystanders that go on side by side. -/
theorem Activity.sparing_turnParts : (parts : List Activity) → (∀ part ∈ parts, part.Apart J) →
    SparingParts J (Activity.turnParts parts)
  | [], _ => by
    rw [Activity.turnParts]
    exact sparing_pure (by simp [LeavesParts])
  | part :: rest, h => by
    rw [Activity.turnParts]
    refine (Activity.sparing_turn part (h part List.mem_cons_self)).bind fun turn hturn => ?_
    exact sparing_collect hturn (Activity.sparing_turnParts rest fun a ha => h a (List.mem_cons_of_mem part ha))

end

end Turns

/-! ### Bystanders in a frame -/

section Frames

variable {J : CancelToken} {m p : Machine} {done : List Machine.Poll} {rest quiet : List Activity}

/-- What a bystander does in its turn, and what is left of it. -/
theorem Activity.Apart.step {a : Activity} (h : a.Apart J) (p : Machine) :
    p.Spares J (a.step p).2 ∧ (∃ new, (a.step p).2.spawned = p.spawned ++ new ∧ ∀ b ∈ new, b.Apart J) ∧
      ∀ left, (a.step p).1.left = some left → left.Apart J := by
  obtain ⟨hspares, hspawned, hleaves⟩ := Activity.sparing_turn a h p
  refine ⟨hspares, hspawned, fun left hleft => ?_⟩
  change ((a.step p).1).Leaves (Activity.Apart J) at hleaves
  cases hturn : (a.step p).1 with
  | done answer =>
    rw [hturn] at hleft
    cases hleft
  | waiting rest =>
    rw [hturn] at hleft hleaves
    obtain rfl := Option.some.inj hleft
    exact hleaves

/-- The same for a task that is a bystander for some frames: it is one for one frame less afterwards. -/
theorem Activity.ApartFor.step {a : Activity} {frames : Nat} (h : a.ApartFor J (frames + 1)) (p : Machine) :
    p.Spares J (a.step p).2 ∧ (∃ new, (a.step p).2.spawned = p.spawned ++ new ∧ ∀ b ∈ new, b.Apart J) ∧
      ∀ left, (a.step p).1.left = some left → left.ApartFor J frames := by
  cases h with
  | apart h =>
    obtain ⟨hspares, hspawned, hleft⟩ := h.step p
    exact ⟨hspares, hspawned, fun left hkept => .apart (hleft left hkept)⟩
  | @timer left source token h =>
    obtain ⟨left, rfl⟩ : ∃ k, left = k + 1 := Nat.exists_eq_add_one.2 (by omega)
    -- It waits on, or it gives up since its own token is cancelled.
    have hturn : (Activity.andThen (.wait (.frames (left + 1) token)) (.expire source)).step p = (.cancelled, p) ∨
        (Activity.andThen (.wait (.frames (left + 1) token)) (.expire source)).step p =
          (.waiting (.andThen (.wait (.frames left token)) (.expire source)), p) := by
      rw [Activity.step, Activity.turn, Activity.turn]
      have hwait := run_frames (left + 1) token p
      split at hwait
      · exact .inl (run_look hwait)
      · exact .inr (run_look hwait)
    rcases hturn with hturn | hturn
    · rw [hturn]
      exact ⟨.refl J p, ⟨[], (List.append_nil _).symm, by simp⟩, fun rest hrest => by cases hrest⟩
    · rw [hturn]
      refine ⟨.refl J p, ⟨[], (List.append_nil _).symm, by simp⟩, fun rest hrest => ?_⟩
      obtain rfl := Option.some.inj hrest
      exact .timer (Nat.le_of_succ_le_succ h)

/-- The moments of a frame of a run between two turns. -/
abbrev Machine.Round (m : Machine) : List Machine.Poll → List Activity → Machine → Prop :=
  Scheduler.Round Activity.taskTurn m

/-- Some bystanders take their turns. -/
theorem Machine.Round.bystanders {frames : Nat} (h : m.Round done (quiet ++ rest) p)
    (hquiet : ∀ a ∈ quiet, a.ApartFor J (frames + 1)) :
    ∃ turns q, m.Round (done ++ turns) rest q ∧ p.Spares J q ∧ turns.length = quiet.length ∧
      (∀ left ∈ turns.filterMap Poll.kept, left.ApartFor J frames) ∧
      ∃ new, q.spawned = p.spawned ++ new ∧ ∀ a ∈ new, a.Apart J := by
  induction quiet generalizing done p with
  | nil => exact ⟨[], p, by simpa using h, .refl J p, rfl, by simp, [], (List.append_nil _).symm, by simp⟩
  | cons a others ih =>
    have hturn := Scheduler.Round.turn h
    rw [Activity.run_taskTurn] at hturn
    obtain ⟨hspares, ⟨new, hnew, hapart⟩, hleft⟩ := (hquiet a List.mem_cons_self).step p
    obtain ⟨turns, q, hround, hspares', hlength, hkept, more, hmore, hapart'⟩ :=
      ih hturn fun b hb => hquiet b (List.mem_cons_of_mem a hb)
    refine ⟨⟨a, p⟩ :: turns, q, ?_, hspares.trans hspares', by simp [hlength], fun left hmem => ?_, new ++ more, ?_,
      fun b hb => (List.mem_append.1 hb).elim (hapart b) (hapart' b)⟩
    · rwa [List.append_cons]
    · obtain ⟨poll, hpoll, hleft'⟩ := List.mem_filterMap.1 hmem
      rcases List.mem_cons.1 hpoll with rfl | hpoll
      · exact hleft left ((Machine.Poll.kept_eq _).symm.trans hleft')
      · exact hkept left (List.mem_filterMap.2 ⟨poll, hpoll, hleft'⟩)
    · rw [hmore, hnew, List.append_assoc]

/-- Whatever tasks do in the rest of a frame, the ends of phases that were written down stay so. -/
theorem Machine.Round.completions (h : m.Round done rest p) :
    p.shared.campaign.completions <+: m.tick.shared.campaign.completions := by
  have hstep : ∀ (done : List Poll) task (rest : List Activity) (q : Machine),
      p.shared.campaign.completions <+: q.shared.campaign.completions →
      p.shared.campaign.completions <+: ((Activity.taskTurn task).run q).2.shared.campaign.completions :=
    fun _ task _ q hq => by
      rw [Activity.run_taskTurn]
      exact hq.trans (task.step_advances q).completions
  obtain ⟨last, hlast, -, htick⟩ := Scheduler.Round.rule
    (I := fun _ _ (q : Machine) => p.shared.campaign.completions <+: q.shared.campaign.completions)
    Activity.descending
    hstep (fun _ _ hq => hq) h (List.prefix_refl _)
  rw [Machine.tick, htick]
  exact hlast

/-- The same for the end of a phase that is written down in a turn. -/
theorem Machine.Round.completions_turn {a : Activity} (h : m.Round done (a :: rest) p) :
    (a.step p).2.shared.campaign.completions <+: m.tick.shared.campaign.completions := by
  have hround := Scheduler.Round.turn h
  rw [Activity.run_taskTurn] at hround
  exact Machine.Round.completions hround

end Frames

end Barrage
