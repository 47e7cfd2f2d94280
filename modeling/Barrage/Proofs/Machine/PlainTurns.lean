import Barrage.Proofs.Machine.Courses
import Barrage.Proofs.Machine.Frames

/-!
# Turns of plain trees

A tree is plain if it only waits, emits, and puts trees after one another or side by side. What a turn of such
a tree does to a run can be said exactly, as long as its token is live and its expressions come to what a
forecast says: it emits what its course says in this frame, in the order of the tree, and what is left of it
has the rest of the course before it. Under a cancelled token it ends and leaves the run as it is.

Evaluations may touch the host objects, since a served unit can create timers. So a forecast has to be right
for all host objects that evaluations of the same frame can lead to.

## Main definitions

* `Touched`, `Forecast.Right`: the values of expressions in a frame
* `Node.Plain`, `Activity.Plain`: trees, and trees on their way, that a forecast covers
* `Machine.Does`: what a part of a turn of a plain tree does to a run
* `Realizes`: a computation does what a course says in a frame, and leaves the rest of it

## Main results

* `Activity.realizes_turn`: the turn of a plain tree realizes its course
* `Activity.stops_turn`: the turn of a plain tree under a cancelled token
-/

namespace Barrage

/-! ### Forecasts -/

/-- What an expression is called with in a frame. -/
def leafArgsIn (clock : FrameClock) (entity : EntityHandle) (hosts : Hosts) : List Value :=
  [.float clock.seconds, .float (hosts.hp entity)]

/-- Host objects that calls of some expressions in one frame lead to. -/
inductive Touched (E : Callable → Prop) (clock : FrameClock) (entity : EntityHandle) (hosts : Hosts) :
    Hosts → Prop
  | refl : Touched E clock entity hosts hosts
  | call {c : Callable} {before : Hosts} (h : Touched E clock entity hosts before) (hc : E c) :
    Touched E clock entity hosts (c.invoke (leafArgsIn clock entity before) before).2

/-- A forecast is right in a run: in this frame, its expressions come to what it says. -/
structure Forecast.Right (F : Forecast) (E : Callable → Prop) (p : Machine) : Prop where
  frameTime : p.clock.frameTime = F.frameTime
  value : ∀ hosts, Touched E p.clock p.shared.executor.entity p.shared.hosts hosts → ∀ c, E c →
    (c.invoke (leafArgsIn p.clock p.shared.executor.entity hosts) hosts).1 = .ok (F.value c p.clock.frame)

theorem Touched.trans {E : Callable → Prop} {clock : FrameClock} {entity : EntityHandle} {a b c : Hosts}
    (hab : Touched E clock entity a b) (hbc : Touched E clock entity b c) : Touched E clock entity a c := by
  induction hbc with
  | refl => exact hab
  | call _ hc ih => exact .call ih hc

/-- Calls of code leave the host objects alone. -/
theorem Touched.eq_of_code {E : Callable → Prop} {clock : FrameClock} {entity : EntityHandle} {a b : Hosts}
    (hcode : ∀ c, E c → ∃ code, c.body = .code code) (h : Touched E clock entity a b) : b = a := by
  induction h with
  | refl => rfl
  | @call c before _ hc ih =>
    obtain ⟨code, hbody⟩ := hcode c hc
    rw [← ih, Callable.invoke, hbody]
    split
    · rfl
    · split
      · rfl
      · rw [Callable.runBody]
        split
        · rename_i heq
          exact (congrArg Prod.snd heq).symm
        · rename_i heq
          split <;> exact (congrArg Prod.snd heq).symm

/-! ### Plain trees -/

/-- A leaf that only waits or emits, whose expression has values of the right type. -/
def Leaf.Plain (E : Callable → Prop) (F : Forecast) : Leaf Callable → Prop
  | .wait seconds => E seconds ∧ ∀ frame, ∃ x, (F.value seconds frame).asFloat? = some x
  | .waitUntil condition => E condition ∧ ∀ frame, ∃ b, (F.value condition frame).asBool? = some b
  | .emit _ value => E value
  | .shiftPhase => False

/-- Trees without phases and cuts, whose blocking actions have few children. -/
inductive Node.Plain (E : Callable → Prop) (F : Forecast) : Node Callable → Prop
  | action {wait : Float} {blocking : Bool} {children : List (Node Callable)}
    (hfew : blocking → children.length ≤ joinLimit) (h : ∀ child ∈ children, Node.Plain E F child) :
    Node.Plain E F (.action wait blocking children)
  | sequence {wait : Float} {children : List (Node Callable)} (h : ∀ child ∈ children, Node.Plain E F child) :
    Node.Plain E F (.sequence wait children)
  | endBlock {wait : Float} {blocking : Bool} {children : List (Node Callable)}
    (hfew : blocking → children.length ≤ joinLimit) (h : ∀ child ∈ children, Node.Plain E F child) :
    Node.Plain E F (.endBlock wait blocking children)
  | finish {child : Node Callable} (h : Node.Plain E F child) : Node.Plain E F (.finish child)
  | leaf {act : Leaf Callable} (h : act.Plain E F) : Node.Plain E F (.leaf act)

/-- What follows a part of a plain tree that runs under a token. -/
def Continuation.Plain (E : Callable → Prop) (F : Forecast) (T : CancelToken) : Continuation → Prop
  | sequence rest token => token = T ∧ ∀ node ∈ rest, node.Plain E F
  | spread blocking children token =>
    token = T ∧ (blocking → children.length ≤ joinLimit) ∧ ∀ node ∈ children, node.Plain E F
  | hold _ token => token = T
  | _ => False

/-- Plain trees on their way under a token. -/
inductive Activity.Plain (E : Callable → Prop) (F : Forecast) (T : CancelToken) : Activity → Prop
  | start {node : Node Callable} (h : node.Plain E F) : Activity.Plain E F T (.start node T)
  | frames {left : Nat} : Activity.Plain E F T (.wait (.frames left T))
  | until {condition : Callable} (hE : E condition)
    (htype : ∀ frame, ∃ b, (F.value condition frame).asBool? = some b) :
    Activity.Plain E F T (.wait (.until condition T))
  | cancelled : Activity.Plain E F T (.wait (.cancelled T))
  | andThen {first : Activity} {next : Continuation} (hfirst : Activity.Plain E F T first)
    (hnext : next.Plain E F T) : Activity.Plain E F T (.andThen first next)
  | join {parts : List Activity} (hparts : parts ≠ []) (h : ∀ part ∈ parts, Activity.Plain E F T part) :
    Activity.Plain E F T (.join parts)

/-! ### What turns do -/

/-- The event of something that is said. -/
def Saying.event (s : Saying) : Event := .emitted s.label s.value

/-- What a part of a turn of a plain tree does to a run: it emits, touches the hosts, and detaches trees. -/
structure Machine.Does (E : Callable → Prop) (F : Forecast) (T : CancelToken) (p q : Machine)
    (said : List Saying) : Prop where
  clock : q.clock = p.clock
  sources : q.sources = p.sources
  tasks : q.tasks = p.tasks
  spawned : ∃ new, q.spawned = p.spawned ++ new ∧ ∀ t ∈ new, t.Plain E F T
  executor : q.shared.executor =
    { p.shared.executor with events := ⟨p.shared.executor.events.events ++ said.map Saying.event⟩ }
  campaign : q.shared.campaign = p.shared.campaign
  hosts : Touched E p.clock p.shared.executor.entity p.shared.hosts q.shared.hosts

/-- A run in which a plain tree can go on: its token is live, and the forecast is right. -/
structure Machine.Goes (E : Callable → Prop) (F : Forecast) (T : CancelToken) (p : Machine) : Prop where
  live : ¬ T.isCancelled p.sources
  right : F.Right E p

section

open Timeline

variable {E : Callable → Prop} {F : Forecast} {T : CancelToken} {p q r : Machine} {g : Nat}

theorem Machine.Does.refl (p : Machine) : p.Does E F T p [] :=
  ⟨rfl, rfl, rfl, ⟨[], by simp⟩, by simp, rfl, .refl⟩

theorem Machine.Does.trans {said more : List Saying} (hpq : p.Does E F T q said) (hqr : q.Does E F T r more) :
    p.Does E F T r (said ++ more) where
  clock := hqr.clock.trans hpq.clock
  sources := hqr.sources.trans hpq.sources
  tasks := hqr.tasks.trans hpq.tasks
  spawned := by
    obtain ⟨new, hq, hnew⟩ := hpq.spawned
    obtain ⟨new', hr, hnew'⟩ := hqr.spawned
    refine ⟨new ++ new', by rw [hr, hq, List.append_assoc], fun t ht => ?_⟩
    exact (List.mem_append.1 ht).elim (hnew t) (hnew' t)
  executor := by rw [hqr.executor, hpq.executor, List.map_append, ← List.append_assoc]
  campaign := hqr.campaign.trans hpq.campaign
  hosts := by
    have hentity : q.shared.executor.entity = p.shared.executor.entity := by rw [hpq.executor]
    have := hqr.hosts
    rw [hpq.clock, hentity] at this
    exact hpq.hosts.trans this

theorem Machine.Goes.does {said : List Saying} (hp : p.Goes E F T) (h : p.Does E F T q said) : q.Goes E F T where
  live := h.sources ▸ hp.live
  right := by
    have hentity : q.shared.executor.entity = p.shared.executor.entity := by rw [h.executor]
    refine ⟨by rw [h.clock, hp.right.frameTime], fun hosts hhosts c hc => ?_⟩
    rw [h.clock, hentity] at hhosts ⊢
    exact hp.right.value hosts (h.hosts.trans hhosts) c hc

/-- What comes of a turn in a frame is the rest of a course. -/
def Course.Leads (E : Callable → Prop) (F : Forecast) (T : CancelToken) (c : Course) (g : Nat) :
    Turn Activity → Prop
  | .done answer => answer = .ok () ∧ c.ends = some g
  | .waiting rest => rest.Plain E F T ∧ c.ends ≠ some g ∧ rest.timeline F (g + 1) = c.after g

/-- In a frame, a computation does what a course says, and what comes of it is the rest of the course. -/
def Realizes (E : Callable → Prop) (F : Forecast) (T : CancelToken) (g : Nat) (y : Step (World.M Activity))
    (c : Course) : Prop :=
  ∀ p : Machine, p.Goes E F T → p.clock.frame = g →
    p.Does E F T (y.run p).2 (c.now g) ∧ c.Leads E F T g (y.run p).1

/-- The same for parts that go on side by side; they are over together if none is left. -/
def RealizesParts (E : Callable → Prop) (F : Forecast) (T : CancelToken) (g : Nat)
    (y : World.M Activity (Except MachineError (List Activity))) (c : Course) : Prop :=
  ∀ p : Machine, p.Goes E F T → p.clock.frame = g →
    p.Does E F T (y.run p).2 (c.now g) ∧
      ∃ parts, (y.run p).1 = .ok parts ∧ (∀ part ∈ parts, part.Plain E F T) ∧
        ((parts = [] ∧ c.ends = some g) ∨
          (parts ≠ [] ∧ c.ends ≠ some g ∧ Activity.timelineTogether F parts (g + 1) = c.after g))

/-! ### Rules -/

theorem realizes_immediate : Realizes E F T g (pure .finished) (immediate g) :=
  fun p _ _ => ⟨.refl p, rfl, rfl⟩

/-- What goes on without a deed. -/
theorem realizes_waiting {rest : Activity} {c : Course} (hrest : rest.Plain E F T) (hends : c.ends ≠ some g)
    (hnow : c.now g = []) (hafter : rest.timeline F (g + 1) = c.after g) :
    Realizes E F T g (pure (.waiting rest)) c :=
  fun p _ _ => ⟨hnow ▸ .refl p, hrest, hends, hafter⟩

/-- A part, and what follows it. -/
theorem Realizes.followedBy {y : Step (World.M Activity)} (next : Continuation)
    {go : AnswerStep (World.M Activity)} {s : Timeline} (hs : s.Causal) (hy : Realizes E F T g y (s g))
    (hnext : next.Plain E F T) (hgo : Realizes E F T g (go (.ok ())) (next.timeline F g)) :
    Realizes E F T g (do (← y).followedBy next go) (s.seq (next.timeline F) g) := by
  intro p hp hg
  obtain ⟨hdoes, hleads⟩ := hy p hp hg
  change p.Does E F T (((y.run p).1.followedBy next go).run (y.run p).2).2 _ ∧
    Course.Leads E F T _ g (((y.run p).1.followedBy next go).run (y.run p).2).1
  revert hdoes hleads
  generalize y.run p = result
  obtain ⟨turn, q⟩ := result
  intro hdoes hleads
  cases turn with
  | done answer =>
    obtain ⟨rfl, hend⟩ := hleads
    obtain ⟨hends, hnow, hafter⟩ := seq_of_ended (t := next.timeline F) hs hend
    obtain ⟨hdoes', hleads'⟩ := hgo q (hp.does hdoes) (by rw [hdoes.clock, hg])
    refine ⟨hnow ▸ hdoes.trans hdoes', ?_⟩
    change Course.Leads E F T _ g ((go (.ok ())).run q).1
    cases hturn : ((go (.ok ())).run q).1 with
    | done answer =>
      rw [hturn] at hleads'
      exact ⟨hleads'.1, hends.trans hleads'.2⟩
    | waiting rest =>
      rw [hturn] at hleads'
      exact ⟨hleads'.1, hends ▸ hleads'.2.1, hafter ▸ hleads'.2.2⟩
  | waiting rest =>
    obtain ⟨hplain, hend, hrest⟩ := hleads
    obtain ⟨hends, hnow, hafter⟩ := seq_of_going hs (next.causal_timeline F) hend hrest
    refine ⟨hnow ▸ hdoes, .andThen hplain hnext, hends, ?_⟩
    rw [Activity.timeline]
    exact hafter

theorem realizesParts_nil : RealizesParts E F T g (pure (.ok [])) (immediate g) :=
  fun p _ _ => ⟨.refl p, [], rfl, by simp, .inl ⟨rfl, rfl⟩⟩

/-- A part, and the others beside it. -/
theorem Realizes.collect {y : Step (World.M Activity)}
    {others : World.M Activity (Except MachineError (List Activity))} {s t : Timeline} (hs : s.Causal)
    (ht : t.Causal) (hy : Realizes E F T g y (s g)) (hothers : RealizesParts E F T g others (t g)) :
    RealizesParts E F T g (do (← y).collect others) (s.beside t g) := by
  intro p hp hg
  obtain ⟨hdoes, hleads⟩ := hy p hp hg
  change p.Does E F T (((y.run p).1.collect others).run (y.run p).2).2 _ ∧
    ∃ parts, (((y.run p).1.collect others).run (y.run p).2).1 = .ok parts ∧ _
  revert hdoes hleads
  generalize y.run p = result
  obtain ⟨turn, q⟩ := result
  intro hdoes hleads
  obtain ⟨hdoes', parts, hparts, hplain, hrest⟩ := hothers q (hp.does hdoes) (by rw [hdoes.clock, hg])
  rw [now_beside]
  cases turn with
  | done answer =>
    obtain ⟨rfl, hend⟩ := hleads
    obtain ⟨hends, hafter⟩ := beside_of_ended hs ht hend
    refine ⟨hdoes.trans hdoes', parts, hparts, hplain, ?_⟩
    rw [hends, hafter]
    exact hrest
  | waiting part =>
    obtain ⟨hpart, hend, hpartRest⟩ := hleads
    have hrun : ((Turn.collect (.waiting part) others).run q) = (.ok (part :: parts), (others.run q).2) := by
      change ((((others.run q).1).map (part :: ·)), (others.run q).2) = _
      rw [hparts]
      rfl
    refine ⟨by rw [hrun]; exact hdoes.trans hdoes', part :: parts, by rw [hrun], ?_, .inr ⟨by simp, ?_, ?_⟩⟩
    · exact fun a ha => (List.mem_cons.1 ha).elim (· ▸ hpart) (hplain a)
    · exact beside_ends_ne hs hend
    · rw [Activity.timelineTogether]
      refine beside_of_going hs ht hend hpartRest ?_
      rcases hrest with ⟨rfl, hends⟩ | ⟨-, -, hafter⟩
      · exact .inr ⟨hends, by rw [Activity.timelineTogether]⟩
      · exact .inl hafter

theorem RealizesParts.ofParts {y : World.M Activity (Except MachineError (List Activity))} {c : Course}
    (hy : RealizesParts E F T g y c) : Realizes E F T g (do return .ofParts (← y)) c := by
  intro p hp hg
  obtain ⟨hdoes, parts, hparts, hplain, hrest⟩ := hy p hp hg
  have hrun : ((do return Turn.ofParts (← y) : Step (World.M Activity)).run p) =
      (Turn.ofParts (.ok parts), (y.run p).2) := by
    rw [← hparts]
    rfl
  rw [hrun]
  refine ⟨hdoes, ?_⟩
  match parts, hplain, hrest with
  | [], _, .inl ⟨_, hend⟩ => exact ⟨rfl, hend⟩
  | [], _, .inr ⟨hne, _⟩ => exact absurd rfl hne
  | part :: rest, _, .inl ⟨hnil, _⟩ => exact absurd hnil (by simp)
  | part :: rest, hplain, .inr ⟨hne, hend, hafter⟩ =>
    refine ⟨.join hne hplain, hend, ?_⟩
    rw [Activity.timeline]
    exact hafter

/-- What is behind a live token. -/
theorem Realizes.unlessCancelled {y : Step (World.M Activity)} {c : Course} (hy : Realizes E F T g y c) :
    Realizes E F T g (Step.unlessCancelled T y) c := by
  intro p hp hg
  rw [run_unlessCancelled, if_neg hp.live]
  exact hy p hp hg

/-- A duration is counted in the frames of the forecast. -/
theorem realizes_framesFor {y : Nat → Step (World.M Activity)} {seconds : Float} {c : Course}
    (hy : Realizes E F T g (y (F.framesOf seconds)) c) :
    Realizes E F T g (do y (← Stage.change (Scheduler.framesFor seconds))) c := by
  intro p hp hg
  have hframes : (Scheduler.framesFor seconds : World.M Activity Nat).run p = (F.framesOf seconds, p) :=
    congrArg (·, p) (FrameClock.framesFor_congr hp.right.frameTime seconds)
  have hrun : ((do y (← Stage.change (Scheduler.framesFor seconds))) : Step (World.M Activity)).run p =
      (y (F.framesOf seconds)).run p := run_look hframes
  rw [hrun]
  exact hy p hp hg

/-- An expression comes to what the forecast says. -/
theorem realizes_evaluate {e : Callable} {y : Except MachineError Value → Step (World.M Activity)} {c : Course}
    (he : E e) (hy : Realizes E F T g (y (.ok (F.value e g))) c) :
    Realizes E F T g (Stage.perform (.evaluate e) >>= y) c := by
  intro p hp hg
  have hanswer : ((World.invoke e).run p).1 = .ok (F.value e g) := by
    have hvalue := hp.right.value _ .refl e he
    rw [hg] at hvalue
    change Except.mapError MachineError.eval (e.invoke (leafArgsIn p.clock p.shared.executor.entity p.shared.hosts)
      p.shared.hosts).1 = _
    rw [hvalue]
    rfl
  have hdoes : p.Does E F T ((World.invoke e).run p).2 [] := by
    refine ⟨rfl, rfl, rfl, ⟨[], (List.append_nil _).symm, by simp⟩, ?_, rfl, .call .refl he⟩
    rw [List.map_nil, List.append_nil]
    rfl
  change p.Does E F T ((y ((World.invoke e).run p).1).run ((World.invoke e).run p).2).2 _ ∧
    Course.Leads E F T _ g ((y ((World.invoke e).run p).1).run ((World.invoke e).run p).2).1
  rw [hanswer]
  obtain ⟨hdoes', hleads⟩ := hy _ (hp.does hdoes) (by rw [hdoes.clock, hg])
  exact ⟨hdoes.trans hdoes', hleads⟩

/-! ### Trees and activities -/

theorem realizes_frames (left : Nat) : Realizes E F T g (Wait.frames left T).step (pause left g) := by
  rw [Wait.step_eq]
  refine Realizes.unlessCancelled ?_
  cases left with
  | zero => exact realizes_immediate
  | succ left =>
    obtain ⟨hends, hafter⟩ := pause_of_going (g := g) left
    exact realizes_waiting .frames hends rfl (by rw [Activity.timeline]; exact hafter)

theorem realizes_until {condition : Callable} (hE : E condition)
    (htype : ∀ frame, ∃ b, (F.value condition frame).asBool? = some b) :
    Realizes E F T g (Wait.until condition T).step (firstTime (F.holdsAt condition) g) := by
  rw [Wait.step_eq]
  refine Realizes.unlessCancelled ?_
  simp only [Wait.liveTurn, Callable.holds, bind_assoc]
  refine realizes_evaluate hE ?_
  obtain ⟨b, hb⟩ := htype g
  have hholds : F.holdsAt condition g = b := by rw [Forecast.holdsAt, hb]; rfl
  dsimp only
  rw [hb]
  cases b with
  | true =>
    refine fun p hp hg => ⟨.refl p, rfl, ?_⟩
    exact firstTime_eq_some_iff.2 ⟨Nat.le_refl g, hholds, fun k hgk hkg => by omega⟩
  | false =>
    obtain ⟨hends, hafter⟩ := firstTime_of_going hholds
    exact realizes_waiting (.until hE htype) hends rfl (by rw [Activity.timeline]; exact hafter)

theorem realizes_cancelled : Realizes E F T g (Wait.cancelled T).step (never g) := by
  rw [Wait.step_eq]
  refine Realizes.unlessCancelled ?_
  exact realizes_waiting .cancelled (by simp [never]) rfl (by rw [Activity.timeline]; rfl)

theorem realizes_delayed (seconds : Float) :
    Realizes E F T g (delayed seconds T) (pause (F.framesOf seconds) g) :=
  realizes_framesFor (realizes_frames _)

theorem realizes_leafStart {act : Leaf Callable} (hact : act.Plain E F) :
    Realizes E F T g (act.start T) (act.timeline F g) := by
  refine Realizes.unlessCancelled ?_
  cases act with
  | wait seconds =>
    obtain ⟨hE, htype⟩ := hact
    refine realizes_evaluate hE ?_
    obtain ⟨x, hx⟩ := htype g
    dsimp only
    have hnumber : F.numberAt seconds g = x := by rw [Forecast.numberAt, hx]; rfl
    rw [hx, Leaf.timeline, ← hnumber]
    exact realizes_delayed _
  | waitUntil condition => exact realizes_until hact.1 hact.2
  | emit label value =>
    refine realizes_evaluate hact fun p hp hg => ?_
    have hnow : (Leaf.timeline F (.emit label value) g).now g = [⟨g, label, F.value value g⟩] := by
      simp [Leaf.timeline, say, Course.now]
    rw [hnow]
    exact ⟨⟨rfl, rfl, rfl, ⟨[], (List.append_nil _).symm, by simp⟩, rfl, rfl, .refl⟩, rfl, rfl⟩
  | shiftPhase => exact hact.elim

/-- Trees that are detached: their courses are those of other tasks. -/
theorem realizes_detach {children : List (Node Callable)} (h : ∀ child ∈ children, child.Plain E F) :
    Realizes E F T g (do
      Stage.change (children.forM (Node.detach T))
      return .finished) (immediate g) := by
  have hrun : ∀ (nodes : List (Node Callable)) (p : Machine), (nodes.forM (Node.detach T)).run p =
      ((), { p with spawned := p.spawned ++ nodes.map (Activity.start · T) }) := by
    intro nodes
    induction nodes with
    | nil => exact fun p => by rw [List.map_nil, List.append_nil]; rfl
    | cons node rest ih =>
      intro p
      change (rest.forM (Node.detach T)).run { p with spawned := p.spawned ++ [.start node T] } = _
      rw [ih, List.append_assoc]
      rfl
  intro p hp hg
  change p.Does E F T ((children.forM (Node.detach T)).run p).2 _ ∧ _
  rw [hrun]
  refine ⟨⟨rfl, rfl, rfl, ⟨_, rfl, fun t ht => ?_⟩, ?_, rfl, .refl⟩, rfl, rfl⟩
  · obtain ⟨child, hchild, rfl⟩ := List.mem_map.1 ht
    exact .start (h child hchild)
  · have hnow : (immediate g).now g = [] := rfl
    rw [hnow, List.map_nil, List.append_nil]

theorem realizes_together {blocking : Bool} {children : List (Node Callable)}
    {parts : World.M Activity (Except MachineError (List Activity))} {many : Step (World.M Activity)}
    (hfew : blocking → children.length ≤ joinLimit) (h : ∀ child ∈ children, child.Plain E F)
    (hparts : RealizesParts E F T g parts (Node.timelineTogether F children g)) :
    Realizes E F T g (Node.together blocking children T parts many)
      ((if blocking then Node.timelineTogether F children else immediate) g) := by
  cases blocking with
  | true =>
    rw [if_pos rfl, Node.together, if_pos rfl, if_pos (hfew rfl)]
    exact hparts.ofParts
  | false => exact realizes_detach h

mutual

/-- The first turn of a plain tree. -/
theorem realizes_nodeStart : (node : Node Callable) → node.Plain E F → (g : Nat) →
    Realizes E F T g (node.start T) (node.timeline F g)
  | .action wait blocking children, h, g => by
    cases h with
    | action hfew h =>
      rw [Node.start, Node.timeline]
      refine (realizes_delayed wait).followedBy (.spread blocking children T) (causal_pause _)
        ⟨rfl, hfew, h⟩ ?_
      exact realizes_together hfew h (realizes_startParts children h g)
  | .sequence wait children, h, g => by
    cases h with
    | sequence h =>
      rw [Node.start, Node.timeline]
      refine (realizes_delayed wait).followedBy (.sequence children T) (causal_pause _) ⟨rfl, h⟩ ?_
      exact realizes_startInTurn children h g
  | .endBlock wait blocking children, h, g => by
    cases h with
    | endBlock hfew h =>
      rw [Node.start, Node.timeline]
      refine (realizes_delayed wait).followedBy (.spread blocking children T) (causal_pause _)
        ⟨rfl, hfew, h⟩ ?_
      exact realizes_together hfew h (realizes_startParts children h g)
  | .finish child, h, g => by
    cases h with
    | finish h =>
      rw [Node.start, Node.timeline]
      exact realizes_nodeStart child h g
  | .leaf act, h, g => by
    cases h with
    | leaf h =>
      rw [Node.start, Node.timeline]
      exact realizes_leafStart h
  | .pattern _ _, h, _ => by cases h
  | .phase _, h, _ => by cases h

/-- Some plain trees one after another. -/
theorem realizes_startInTurn : (children : List (Node Callable)) → (∀ child ∈ children, child.Plain E F) →
    (g : Nat) → Realizes E F T g (Node.startInTurn children T) (Node.timelineInTurn F children g)
  | [], _, g => by
    rw [Node.startInTurn, Node.timelineInTurn]
    exact realizes_immediate
  | node :: rest, h, g => by
    rw [Node.startInTurn, Node.timelineInTurn]
    have hrest := fun child hchild => h child (List.mem_cons_of_mem node hchild)
    refine (realizes_nodeStart node (h node List.mem_cons_self) g).followedBy (.sequence rest T)
      (node.causal_timeline F) ⟨rfl, hrest⟩ ?_
    exact realizes_startInTurn rest hrest g

/-- Some plain trees side by side. -/
theorem realizes_startParts : (children : List (Node Callable)) → (∀ child ∈ children, child.Plain E F) →
    (g : Nat) → RealizesParts E F T g (Node.startParts children T) (Node.timelineTogether F children g)
  | [], _, g => by
    rw [Node.startParts, Node.timelineTogether]
    exact realizesParts_nil
  | node :: rest, h, g => by
    rw [Node.startParts, Node.timelineTogether]
    exact (realizes_nodeStart node (h node List.mem_cons_self) g).collect (node.causal_timeline F)
      (Node.causal_timelineTogether F rest)
      (realizes_startParts rest (fun child hchild => h child (List.mem_cons_of_mem node hchild)) g)

end

/-- The turn after a part of a plain tree that is over. -/
theorem realizes_apply {next : Continuation} (h : next.Plain E F T) :
    Realizes E F T g (next.apply (.ok ())) (next.timeline F g) := by
  cases next with
  | sequence rest token =>
    obtain ⟨rfl, h⟩ := h
    exact realizes_startInTurn rest h g
  | spread blocking children token =>
    obtain ⟨rfl, hfew, h⟩ := h
    exact realizes_together hfew h (realizes_startParts children h g)
  | hold stays token =>
    obtain rfl : token = T := h
    cases stays with
    | true => exact realizes_cancelled
    | false => exact realizes_immediate.unlessCancelled
  | _ => exact h.elim

mutual

/-- The turn of a plain tree on its way. -/
theorem Activity.realizes_turn : (a : Activity) → a.Plain E F T → (g : Nat) →
    Realizes E F T g a.turn (a.timeline F g)
  | .start node token, h, g => by
    cases h with
    | start h =>
      rw [Activity.turn, Activity.timeline]
      exact realizes_nodeStart node h g
  | .wait _, .frames, g => by
    rw [Activity.turn, Activity.timeline]
    exact realizes_frames _
  | .wait _, .until hE htype, g => by
    rw [Activity.turn, Activity.timeline]
    exact realizes_until hE htype
  | .wait _, .cancelled, g => by
    rw [Activity.turn, Activity.timeline]
    exact realizes_cancelled
  | .andThen first next, .andThen hfirst hnext, g => by
    rw [Activity.turn, Activity.timeline]
    exact (Activity.realizes_turn first hfirst g).followedBy next (first.causal_timeline F) hnext
      (realizes_apply hnext)
  | .join parts, .join _ h, g => by
    rw [Activity.turn, Activity.timeline]
    exact (Activity.realizes_turnParts parts h g).ofParts

/-- The turns of plain trees that go on side by side. -/
theorem Activity.realizes_turnParts : (parts : List Activity) → (∀ part ∈ parts, part.Plain E F T) → (g : Nat) →
    RealizesParts E F T g (Activity.turnParts parts) (Activity.timelineTogether F parts g)
  | [], _, g => by
    rw [Activity.turnParts, Activity.timelineTogether]
    exact realizesParts_nil
  | part :: rest, h, g => by
    rw [Activity.turnParts, Activity.timelineTogether]
    exact (Activity.realizes_turn part (h part List.mem_cons_self) g).collect (part.causal_timeline F)
      (Activity.causal_timelineTogether F rest)
      (Activity.realizes_turnParts rest (fun a ha => h a (List.mem_cons_of_mem part ha)) g)

end

/-! ### Under a cancelled token -/

/-- A computation that ends as cancelled and leaves the run as it is. -/
def Stops (y : Step (World.M Activity)) (p : Machine) : Prop := y.run p = (.cancelled, p)

theorem stops_unlessCancelled (hT : T.isCancelled p.sources) (y : Step (World.M Activity)) :
    Stops (Step.unlessCancelled T y) p := by
  exact run_unlessCancelled.trans (if_pos hT)

theorem stops_wait {pause : Wait Callable} (hpause : pause.token = T) (hT : T.isCancelled p.sources) :
    Stops pause.step p := by
  rw [Wait.step_eq, hpause]
  exact stops_unlessCancelled hT _

theorem Stops.followedBy {y : Step (World.M Activity)} (h : Stops y p) (next : Continuation)
    (go : Step (World.M Activity)) : Stops (do (← y).followedBy next (Step.onSuccess go)) p :=
  run_look h

theorem stops_delayed (seconds : Float) (hT : T.isCancelled p.sources) : Stops (delayed seconds T) p :=
  (run_look (y := Stage.change (Scheduler.framesFor seconds)) rfl).trans (stops_wait rfl hT)

theorem stops_nodeStart (hT : T.isCancelled p.sources) : (node : Node Callable) → node.Plain E F →
    Stops (node.start T) p
  | .action wait _ _, _ => by
    rw [Node.start]
    exact (stops_delayed wait hT).followedBy _ _
  | .sequence wait _, _ => by
    rw [Node.start]
    exact (stops_delayed wait hT).followedBy _ _
  | .endBlock wait _ _, _ => by
    rw [Node.start]
    exact (stops_delayed wait hT).followedBy _ _
  | .finish child, h => by
    cases h with
    | finish h =>
      rw [Node.start]
      exact stops_nodeStart hT child h
  | .leaf act, _ => by
    rw [Node.start]
    exact stops_unlessCancelled hT _
  | .pattern _ _, h => by cases h
  | .phase _, h => by cases h

/-- The turn of a plain tree on its way under a cancelled token: it ends, and nothing happens. -/
theorem Activity.stops_turn (hT : T.isCancelled p.sources) : (a : Activity) → a.Plain E F T → Stops a.turn p
  | .start node token, h => by
    cases h with
    | start h =>
      rw [Activity.turn]
      exact stops_nodeStart hT node h
  | .wait pause, h => by
    rw [Activity.turn]
    refine stops_wait ?_ hT
    cases h <;> rfl
  | .andThen first next, .andThen hfirst hnext => by
    rw [Activity.turn]
    have hstops := Activity.stops_turn hT first hfirst
    cases next with
    | sequence rest token => exact hstops.followedBy _ _
    | spread blocking children token => exact hstops.followedBy _ _
    | hold stays token => exact hstops.followedBy _ _
    | _ => exact hnext.elim
  | .join (part :: rest), .join _ h => by
    rw [Activity.turn, Activity.turnParts]
    have hparts : (do (← part.turn).collect (Activity.turnParts rest) :
        World.M Activity (Except MachineError (List Activity))).run p = (.error .cancelled, p) :=
      run_look (Activity.stops_turn hT part (h part List.mem_cons_self))
    exact run_look hparts
  | .join [], .join hparts _ => absurd rfl hparts

end

end Barrage
