import Barrage.Proofs.Machine.Containment
import Barrage.Proofs.Machine.Surroundings

/-!
# Where phases start

A phase starts somewhere in a turn of a task: in a sequence, in a pattern, among the parts of a blocking action, in
the end block of another phase, and any of these within each other. Wherever that is, it is a point that the turn
comes to, with something around it; there is no other way for a phase to start. So what holds of the points of a
turn holds of all phases.

This is read off the record of the turn, in which the entry of each phase is noted.

## Main definitions

* `Records`: what is known of the notes that a computation adds to its record
* `Opens`: each phase that is entered is at a point that the turn comes to

## Main results

* `Activity.exists_enters`: the turn of a task comes to each phase that starts in it
-/

namespace Barrage

/-- A watched computation does what the plain one does and adds notes of some kind, which may depend on the run that
it finds; the plain one only adds to the run. -/
def Records {α : Type} (K : Machine → Note → Prop) (x : Watched α) (y : World.M Activity α) : Prop :=
  ∀ notes (p : Machine), ∃ more, (x.run notes).run p = (((y.run p).1, notes ++ more), (y.run p).2) ∧
    p.Advances (fun _ => True) (y.run p).2 ∧ ∀ note ∈ more, K p note

/-- A note tells of the entry of a phase that is at a point of a turn. -/
def Note.AtPoint (y : Step (World.M Activity)) (p : Machine) (note : Note) : Prop :=
  ∀ phase index T, note.deed = .enter phase index T →
    ∃ layers, Step.Enters (phase.start index T) note.before y p layers

/-- A computation in which no phase is entered. -/
abbrev OpensNothing {α : Type} (x : Watched α) (y : World.M Activity α) : Prop :=
  Records (fun _ note => ∀ phase index T, note.deed ≠ .enter phase index T) x y

/-- A turn that comes to each phase that is entered in it. -/
abbrev Opens (x : Step Watched) (y : Step (World.M Activity)) : Prop := Records (Note.AtPoint y) x y

/-- One of some parts comes to a point in its turn, and those before it go on. -/
def Activity.AtPart (parts : List Activity) (p : Machine) (note : Note) : Prop :=
  ∀ phase index T, note.deed = .enter phase index T → ∃ before part after left q layers,
    parts = before ++ part :: after ∧ Activity.partsLeft? before p = some (left, q) ∧
    Step.Enters (phase.start index T) note.before part.turn q layers

section Rules

variable {α β : Type} {K K' : Machine → Note → Prop} {x : Watched α} {y : World.M Activity α}
  {f : α → Watched β} {g : α → World.M Activity β} {token : CancelToken}

/-! ### Computations without entries -/

theorem records_pure (a : α) : Records K (pure a) (pure a) :=
  fun notes p => ⟨[], by rw [List.append_nil]; rfl, .refl p, by simp⟩

/-- Two computations one after the other. -/
theorem Records.bind {L : α → Machine → Note → Prop} (hx : Records K x y) (hf : ∀ a, Records (L a) (f a) (g a))
    (hfirst : ∀ p note, K p note → K' p note)
    (hthen : ∀ (p : Machine) note, p.Advances (fun _ => True) (y.run p).2 →
      L (y.run p).1 (y.run p).2 note → K' p note) :
    Records K' (x >>= f) (y >>= g) := by
  intro notes p
  obtain ⟨more, hrun, hadv, hmore⟩ := hx notes p
  obtain ⟨more', hrun', hadv', hmore'⟩ := hf (y.run p).1 (notes ++ more) (y.run p).2
  refine ⟨more ++ more', ?_, hadv.trans hadv', fun note hnote => ?_⟩
  · have hbind : ((x >>= f).run notes).run p =
        ((f ((x.run notes).run p).1.1).run ((x.run notes).run p).1.2).run ((x.run notes).run p).2 := rfl
    rw [hbind, hrun, hrun', List.append_assoc]
    rfl
  · exact (List.mem_append.1 hnote).elim (fun h => hfirst p note (hmore note h)) fun h =>
      hthen p note hadv (hmore' note h)

theorem OpensNothing.bind (hx : OpensNothing x y) (hf : ∀ a, OpensNothing (f a) (g a)) :
    OpensNothing (x >>= f) (y >>= g) :=
  Records.bind hx hf (fun _ _ h => h) fun _ _ _ h => h

theorem opensNothing_change {S : Activity → Prop} {Q : α → Prop} (hy : Ensures S (fun _ => True) Q y) :
    OpensNothing (Stage.change y) (Stage.change y) :=
  fun notes p => ⟨[], by rw [List.append_nil]; rfl, (hy p trivial).1.mono fun _ _ => trivial, by simp⟩

theorem opensNothing_perform {S : Activity → Prop} {deed : Deed} {Q : deed.Answer → Prop}
    (hdeed : ∀ phase index T, deed ≠ .enter phase index T) (hy : Ensures S (fun _ => True) Q deed.run) :
    OpensNothing (Stage.perform deed) (Stage.perform deed) := by
  refine fun notes p => ⟨[⟨deed, p⟩], rfl, (hy p trivial).1.mono fun _ _ => trivial, fun note hnote => ?_⟩
  rw [List.mem_singleton.1 hnote]
  exact hdeed

theorem opensNothing_isCancelled (token : CancelToken) :
    OpensNothing (Step.isCancelled token) (Step.isCancelled token) :=
  opensNothing_change (S := fun _ => True) (ensures_look fun _ => rfl)

theorem opensNothing_unlessCancelled {x : Step Watched} {y : Step (World.M Activity)} (h : OpensNothing x y) :
    OpensNothing (Step.unlessCancelled token x) (Step.unlessCancelled token y) :=
  (opensNothing_isCancelled token).bind fun cancelled => by
    cases cancelled with
    | true => exact records_pure _
    | false => exact h

theorem opensNothing_evaluate {c : Callable} {f : Except MachineError Value → Watched β}
    {g : Except MachineError Value → World.M Activity β} (h : ∀ answer, OpensNothing (f answer) (g answer)) :
    OpensNothing (Stage.perform (.evaluate c) >>= f) (Stage.perform (.evaluate c) >>= g) := by
  have hinvoke : Ensures (fun _ => True) (fun _ => True) (fun _ => True) (World.invoke c) := fun p _ =>
    ⟨.of_shared (List.prefix_refl _) (List.prefix_refl _), rfl, trivial⟩
  exact OpensNothing.bind (opensNothing_perform (fun _ _ _ h => by cases h) hinvoke) h

theorem opensNothing_wait (pause : Wait Callable) : OpensNothing pause.step pause.step := by
  rw [Wait.step_eq, Wait.step_eq]
  refine opensNothing_unlessCancelled ?_
  cases pause with
  | frames left token =>
    cases left with
    | zero => exact records_pure _
    | succ left => exact records_pure _
  | «until» c token =>
    simp only [Wait.liveTurn, Callable.holds, bind_assoc]
    refine opensNothing_evaluate fun answer => ?_
    cases answer with
    | error e => exact records_pure _
    | ok value =>
      dsimp only
      rcases value.asBool? with - | - | - <;> exact records_pure _
  | cancelled token => exact records_pure _

theorem opensNothing_delayed (seconds : Float) (token : CancelToken) :
    OpensNothing (delayed seconds token) (delayed seconds token) :=
  (opensNothing_change (S := fun _ => True) (ensures_look fun _ => rfl)).bind fun _ => opensNothing_wait _

theorem opensNothing_leafStart (leaf : Leaf Callable) (token : CancelToken) :
    OpensNothing (leaf.start token) (leaf.start token) := by
  refine opensNothing_unlessCancelled ?_
  cases leaf with
  | wait seconds =>
    refine opensNothing_evaluate fun answer => ?_
    cases answer with
    | error e => exact records_pure _
    | ok value =>
      dsimp only
      cases value.asFloat? with
      | none => exact records_pure _
      | some seconds => exact opensNothing_delayed seconds token
  | waitUntil c => exact opensNothing_wait _
  | emit label value =>
    refine opensNothing_evaluate fun answer => ?_
    cases answer with
    | error e => exact records_pure _
    | ok value =>
      have hemit : OpensNothing (Stage.perform (.emit label value)) (Stage.perform (.emit label value)) := by
        refine fun notes p => ⟨[⟨.emit label value, p⟩], rfl,
          .of_shared (List.prefix_append _ _) (List.prefix_refl _), fun note hnote => ?_⟩
        rw [List.mem_singleton.1 hnote]
        exact fun _ _ _ h => by cases h
      exact hemit.bind fun _ => records_pure _
  | shiftPhase =>
    exact (opensNothing_perform (S := fun _ => True) (fun _ _ _ h => by cases h) ensures_shiftPhase).bind fun _ =>
      opensNothing_unlessCancelled (records_pure _)

end Rules

/-! ### Turns with entries -/

section Turns

variable {α : Type} {x : Step Watched} {y : Step (World.M Activity)} {token : CancelToken}

theorem OpensNothing.opens (h : OpensNothing x y) : Opens x y := fun notes p => by
  obtain ⟨more, hrun, hadv, hmore⟩ := h notes p
  exact ⟨more, hrun, hadv, fun note hnote _ _ _ heq => absurd heq (hmore note hnote _ _ _)⟩

theorem opens_done (answer : Except MachineError Unit) : Opens (pure (.done answer)) (pure (.done answer)) :=
  records_pure _

/-- What comes after something without entries. -/
theorem OpensNothing.before {u : Watched α} {v : World.M Activity α} {f : α → Step Watched}
    {g : α → Step (World.M Activity)} (h : OpensNothing u v) (hf : ∀ a, Opens (f a) (g a)) :
    Opens (u >>= f) (v >>= g) :=
  Records.bind h hf (fun _ _ hnot _ _ _ heq => absurd heq (hnot _ _ _)) fun _ _ hadv hat phase index T heq => by
    obtain ⟨layers, henters⟩ := hat phase index T heq
    exact ⟨layers, .before hadv henters⟩

theorem opens_unlessCancelled (h : Opens x y) :
    Opens (Step.unlessCancelled token x) (Step.unlessCancelled token y) :=
  (opensNothing_isCancelled token).before fun cancelled => by
    cases cancelled with
    | true => exact opens_done _
    | false => exact h

theorem opens_onSuccess (h : Opens x y) (answer : Except MachineError Unit) :
    Opens (Step.onSuccess x answer) (Step.onSuccess y answer) :=
  match answer with
  | .ok () => h
  | .error _ => opens_done _

theorem Opens.advances (h : Opens x y) (p : Machine) : p.Advances (fun _ => True) (y.run p).2 := by
  obtain ⟨-, -, hadv, -⟩ := h [] p
  exact hadv

/-- A part of a turn, and what follows it. -/
theorem Opens.followedBy {next : Continuation} {go : AnswerStep Watched} {go' : AnswerStep (World.M Activity)}
    (h : Opens x y) (hgo : ∀ answer, Opens (go answer) (go' answer)) :
    Opens (do (← x).followedBy next go) (do (← y).followedBy next go') := by
  have hnext : ∀ turn : Turn Activity, Opens (turn.followedBy next go) (turn.followedBy next go') := fun turn =>
    match turn with
    | .done answer => hgo answer
    | .waiting _ => records_pure _
  refine Records.bind h hnext (fun p note hat phase index T heq => ?_) fun p note hadv hat phase index T heq => ?_
  · obtain ⟨layers, henters⟩ := hat phase index T heq
    exact ⟨_, .followed (fun answer p => (hgo answer).advances p) henters⟩
  · obtain ⟨layers, henters⟩ := hat phase index T heq
    exact ⟨layers, .before hadv henters⟩

/-- A part that does not fail lets those after it have their turns. -/
theorem Activity.exists_partsLeft?_cons {part : Activity} {before left : List Activity} {p q : Machine}
    (hpart : ∀ e, (part.step p).1 ≠ .done (.error e))
    (h : Activity.partsLeft? before (part.step p).2 = some (left, q)) :
    ∃ left', Activity.partsLeft? (part :: before) p = some (left', q) := by
  rw [Activity.partsLeft?_eq_some_iff] at h
  simp only [Activity.partsLeft?_eq_some_iff, Activity.stepParts_cons]
  match hturn : (part.step p).1 with
  | .done (.error e) => exact absurd hturn (hpart e)
  | .done (.ok ()) => exact ⟨left, h⟩
  | .waiting w => exact ⟨w :: left, by rw [h]; rfl⟩

/-- Parts that go on side by side. -/
theorem records_turnParts : (parts : List Activity) → (∀ a ∈ parts, Opens a.turn a.turn) →
    Records (Activity.AtPart parts) (Activity.turnParts parts) (Activity.turnParts parts)
  | [], _ => by
    rw [Activity.turnParts, Activity.turnParts]
    exact records_pure _
  | part :: rest, h => by
    rw [Activity.turnParts, Activity.turnParts]
    have hrest := records_turnParts rest fun a ha => h a (List.mem_cons_of_mem part ha)
    have hcollect : ∀ turn : Turn Activity,
        Records (fun q note => (∀ e, turn ≠ .done (.error e)) ∧ Activity.AtPart rest q note)
          (turn.collect (Activity.turnParts rest)) (turn.collect (Activity.turnParts rest)) := fun turn => by
      match turn with
      | .done (.error e) => exact records_pure _
      | .done (.ok ()) =>
        intro notes p
        obtain ⟨more, hrun, hadv, hmore⟩ := hrest notes p
        exact ⟨more, hrun, hadv, fun note hnote => ⟨fun _ h => (by cases h), hmore note hnote⟩⟩
      | .waiting w =>
        exact Records.bind hrest (L := fun _ _ _ => False) (fun _ => records_pure _)
          (fun _ _ hat => ⟨fun _ h => (by cases h), hat⟩) fun _ _ _ h => h.elim
    -- A phase that starts is in this part, or in one of the others if this one goes on.
    refine Records.bind (h part List.mem_cons_self) hcollect (fun p note hat phase index T heq => ?_)
      fun p note _ hat phase index T heq => ?_
    · obtain ⟨layers, henters⟩ := hat phase index T heq
      exact ⟨[], part, rest, [], p, layers, rfl,
        Activity.partsLeft?_eq_some_iff.2 (Activity.stepParts_nil p), henters⟩
    · obtain ⟨before, part', after, left, q, layers, rfl, hleft, henters⟩ := hat.2 phase index T heq
      obtain ⟨left', hleft'⟩ := Activity.exists_partsLeft?_cons hat.1 hleft
      exact ⟨part :: before, part', after, left', q, layers, rfl, hleft', henters⟩

/-- A join of parts. -/
theorem opens_ofParts {parts : List Activity} (h : ∀ a ∈ parts, Opens a.turn a.turn) :
    Opens (do return .ofParts (← Activity.turnParts parts)) (do return .ofParts (← Activity.turnParts parts)) := by
  refine Records.bind (records_turnParts parts h) (L := fun _ _ _ => False) (fun _ => records_pure _)
    (fun p note hat phase index T heq => ?_) fun _ _ _ h => h.elim
  obtain ⟨before, part, after, left, q, layers, rfl, hleft, henters⟩ := hat phase index T heq
  exact ⟨_, .beside hleft henters⟩

/-! ### Trees -/

/-- A tree whose first turn comes to each phase that is entered in it, under any token. -/
def Node.Opens (node : Node Callable) : Prop := ∀ token, Barrage.Opens (node.start token) (node.start token)

theorem opens_startInTurn {children : List (Node Callable)} (h : ∀ child ∈ children, child.Opens)
    (token : CancelToken) : Opens (Node.startInTurn children token) (Node.startInTurn children token) := by
  induction children with
  | nil =>
    rw [Node.startInTurn, Node.startInTurn]
    exact opens_done _
  | cons node rest ih =>
    rw [Node.startInTurn, Node.startInTurn]
    exact (h node List.mem_cons_self token).followedBy
      (opens_onSuccess (ih fun child hchild => h child (List.mem_cons_of_mem node hchild)))

theorem opens_startMany {children : List (Node Callable)} (h : ∀ child ∈ children, child.Opens) (finished : Bool)
    (token : CancelToken) :
    Opens (Node.startMany finished children token) (Node.startMany finished children token) := by
  induction children generalizing finished with
  | nil =>
    rw [Node.startMany, Node.startMany]
    cases finished <;> exact records_pure _
  | cons node rest ih =>
    have hrest := ih fun child hchild => h child (List.mem_cons_of_mem node hchild)
    rw [Node.startMany, Node.startMany]
    -- What follows a child that was looked at: nothing of it stays.
    refine Records.bind (h node List.mem_cons_self token) (fun turn => (?_ : Opens _ _))
      (fun p note hat phase index T heq => ?_) fun p note hadv hat phase index T heq => ?_
    · cases turn with
      | done answer =>
        cases answer with
        | ok _ => exact hrest _
        | error _ =>
          cases finished with
          | true => exact opens_done _
          | false => exact hrest false
      | waiting _ => exact hrest false
    · obtain ⟨layers, henters⟩ := hat phase index T heq
      have hcrowded : Step.Enters _ _ (Node.startMany finished (node :: rest) token) _ _ := .crowded henters
      rw [Node.startMany] at hcrowded
      exact ⟨_, hcrowded⟩
    · obtain ⟨layers, henters⟩ := hat phase index T heq
      exact ⟨layers, .before hadv henters⟩

theorem opens_together {blocking : Bool} {children : List (Node Callable)} (h : ∀ child ∈ children, child.Opens)
    (token : CancelToken) :
    Opens (Node.together blocking children token (Node.startParts children token) (Node.startMany true children token))
      (Node.together blocking children token (Node.startParts children token)
        (Node.startMany true children token)) := by
  unfold Node.together
  split
  · split
    · rw [Node.startParts_eq, Node.startParts_eq]
      refine opens_ofParts fun a ha => ?_
      obtain ⟨child, hchild, rfl⟩ := List.mem_map.1 ha
      rw [Activity.turn, Activity.turn]
      exact h child hchild token
    · exact opens_startMany h true token
  · have hdetach : Ensures (fun _ => True) (fun _ => True) (fun _ => True) (children.forM (Node.detach token)) :=
      ensures_forM fun _ _ => ensures_spawn trivial
    exact (opensNothing_change hdetach).before fun _ => opens_done _

/-! ### Patterns -/

/-- The phases of a pattern, each of which comes to all phases that are entered in its first turn. -/
def OpensStarts (starts : PatternRun.Starts Watched) (starts' : PatternRun.Starts (World.M Activity)) : Prop :=
  ∀ place : Nat, Option.Rel (fun start start' => ∀ index token, Opens (start index token) (start' index token))
    starts[place]? starts'[place]?

theorem opens_enter {run : PatternRun} {index : Nat} {start : Nat → CancelToken → Step Watched}
    {start' : Nat → CancelToken → Step (World.M Activity)} {others : Step Watched} {others' : Step (World.M Activity)}
    (hstart : Opens (start index run.token) (start' index run.token)) (hothers : Opens others others') :
    Opens (run.enter index start others) (run.enter index start' others') :=
  opens_unlessCancelled ((opensNothing_change (S := fun _ => True) (ensures_announce run index)).before fun _ =>
    hstart.followedBy (opens_onSuccess hothers))

theorem opens_visit {run : PatternRun} {starts : PatternRun.Starts Watched}
    {starts' : PatternRun.Starts (World.M Activity)} (hstarts : OpensStarts starts starts') (current : Option Nat) :
    Opens (run.visit starts current) (run.visit starts' current) := by
  unfold PatternRun.visit
  -- The bound on the phases that are skipped does not matter here.
  generalize 2 * run.phases.length + 1 = count
  induction count generalizing current with
  | zero => exact opens_done _
  | succ count ih =>
    refine (opensNothing_change (S := fun _ => True) (ensures_nextPhase current)).before fun next => ?_
    cases next with
    | none => exact opens_done _
    | some index =>
      have hplace := hstarts index
      dsimp only
      cases run.phases[index]? with
      | none => exact opens_done _
      | some phase =>
        generalize starts[index]? = start, starts'[index]? = start' at hplace ⊢
        cases hplace with
        | none => exact opens_done _
        | some hstart =>
          have henter := opens_enter (hstart index run.token) (ih (some index))
          dsimp only
          split
          · exact ih (some index)
          refine (opensNothing_change (S := fun _ => True) ensures_get).before fun p => ?_
          cases p.shared.bufferFrames with
          | zero => exact henter
          | succ frames => exact (opensNothing_wait (.frames _ run.token)).opens.followedBy (opens_onSuccess henter)

theorem opens_closeBoss (boss : Boss) (answer : Except MachineError Unit) :
    Opens (PatternRun.closeBoss boss answer) (PatternRun.closeBoss boss answer) := by
  have hdismiss : Ensures (fun _ => True) (fun _ => True) (fun _ => True) (PatternRun.dismissBoss boss) :=
    (ensures_serve _).andThen fun _ => ensures_updateCampaign fun _ => List.prefix_refl _
  exact (opensNothing_change hdismiss).before fun _ => opens_done _

theorem opens_patternStart (run : PatternRun) {starts : PatternRun.Starts Watched}
    {starts' : PatternRun.Starts (World.M Activity)} (hstarts : OpensStarts starts starts') :
    Opens (run.start starts) (run.start starts') := by
  unfold PatternRun.start
  cases run.props.boss with
  | none => exact opens_visit hstarts none
  | some boss =>
    have hopen : Ensures (fun _ => True) (fun _ => True) (fun _ => True) (PatternRun.openBoss boss) :=
      ensures_updateCampaign fun _ => List.prefix_refl _
    exact (opensNothing_change hopen).before fun _ => (opens_visit hstarts none).followedBy (opens_closeBoss boss)

/-! ### Phases -/

theorem opens_settle {run : PhaseRun} (h : Opens x y) (answer : Except MachineError Unit) :
    Opens (run.settle x answer) (run.settle y answer) := by
  have hconclude := ensures_conclude (T := .none) (P := fun _ => True) answer run.token.includes_none
    (Nat.le_refl run.phase.height)
  refine (opensNothing_change hconclude).before fun outcome => ?_
  match outcome with
  | .error _ => exact opens_done _
  | .ok () => exact opens_unlessCancelled h

theorem opensNothing_afterChildren (hold : Bool) (token : CancelToken) :
    OpensNothing (PhaseRun.afterChildren hold token) (PhaseRun.afterChildren hold token) := by
  unfold PhaseRun.afterChildren
  split
  · exact opensNothing_wait _
  · exact opensNothing_unlessCancelled (records_pure _)

theorem opens_startOption {block : Option (Node Callable)} (h : ∀ node ∈ block, node.Opens) (token : CancelToken) :
    Opens (Node.startOption block token) (Node.startOption block token) := by
  cases block with
  | none => exact opens_done _
  | some node => exact h node rfl token

/-- What is done in the turn in which a phase is entered, after its entry. -/
theorem opens_begin (props : PhaseProps) {children : List (Node Callable)} {atEnd : Option (Node Callable)}
    (hchildren : ∀ child ∈ children, child.Opens) (hatEnd : ∀ node ∈ atEnd, node.Opens) (run : PhaseRun)
    (token : CancelToken) :
    Opens
      (do
        let turn ← Node.startInTurn children run.joint
        let turn ← turn.followedBy (.hold props.hold run.joint)
          (Step.onSuccess (PhaseRun.afterChildren props.hold run.joint))
        turn.followedBy (.settle run) (run.settle (Node.startOption atEnd token)))
      (do
        let turn ← Node.startInTurn children run.joint
        let turn ← turn.followedBy (.hold props.hold run.joint)
          (Step.onSuccess (PhaseRun.afterChildren props.hold run.joint))
        turn.followedBy (.settle run) (run.settle (Node.startOption atEnd token))) := by
  rw [← bind_assoc, ← bind_assoc]
  exact ((opens_startInTurn hchildren run.joint).followedBy
    (opens_onSuccess (opensNothing_afterChildren props.hold run.joint).opens)).followedBy
    (opens_settle (opens_startOption hatEnd token))

/-- The entry of a phase is the point with nothing around it; all others are in what is done after it. -/
theorem opens_of_entry (phase : Phase Callable) (index : Nat) (token : CancelToken) {k : PhaseRun → Step Watched}
    {k' : PhaseRun → Step (World.M Activity)} (hk : ∀ run, Opens (k run) (k' run))
    (hstart : (phase.start index token : Step (World.M Activity)) =
      Step.unlessCancelled token (Stage.perform (.enter phase index token) >>= k')) :
    Opens (Step.unlessCancelled token (Stage.perform (.enter phase index token) >>= k)) (phase.start index token) := by
  have hopen := ensures_open (T := .none) (P := fun _ => True) phase index token.includes_none Nat.one_pos
  have henter : Records (fun p note => note = ⟨.enter phase index token, p⟩)
      (Stage.perform (.enter phase index token)) (Stage.perform (.enter phase index token)) := fun notes p =>
    ⟨[_], rfl, (hopen p trivial).1.mono fun _ _ => trivial, fun note hnote => List.mem_singleton.1 hnote⟩
  have hafter : Records
      (fun p note => note = ⟨.enter phase index token, p⟩ ∨
        Note.AtPoint (Stage.perform (.enter phase index token) >>= k') p note)
      (Stage.perform (.enter phase index token) >>= k) (Stage.perform (.enter phase index token) >>= k') :=
    henter.bind hk (fun p note hnote => .inl hnote) fun p note hadv hat => .inr fun phase' index' T heq => by
      obtain ⟨layers, henters⟩ := hat phase' index' T heq
      exact ⟨layers, .before hadv henters⟩
  -- Nothing is entered under a cancelled token, so a record says that the token was live.
  have hbehind : ∀ cancelled : Bool, Records
      (fun p note => cancelled = false ∧ (note = ⟨.enter phase index token, p⟩ ∨
        Note.AtPoint (Stage.perform (.enter phase index token) >>= k') p note))
      (if cancelled then return .cancelled else Stage.perform (.enter phase index token) >>= k : Step Watched)
      (if cancelled then return .cancelled else Stage.perform (.enter phase index token) >>= k') := fun cancelled => by
    cases cancelled with
    | true => exact records_pure _
    | false =>
      intro notes p
      obtain ⟨more, hrun, hadv, hmore⟩ := hafter notes p
      exact ⟨more, hrun, hadv, fun note hnote => ⟨rfl, hmore note hnote⟩⟩
  rw [hstart]
  refine Records.bind (opensNothing_isCancelled token) hbehind (fun _ _ hnot _ _ _ heq => absurd heq (hnot _ _ _))
    fun p note hadv hnote phase' index' T heq => ?_
  obtain ⟨hlive, rfl | hat⟩ := hnote
  · cases heq
    rw [hstart]
    exact ⟨[], .here⟩
  · obtain ⟨layers, henters⟩ := hat phase' index' T heq
    refine ⟨layers, .before hadv ?_⟩
    rw [hlive]
    exact henters

/-- The first turn of a phase comes to the phase itself, and to each phase in its children and its end block. -/
theorem opens_phaseStart (props : PhaseProps) {children : List (Node Callable)} {atEnd : Option (Node Callable)}
    (atCut : Option (Node Callable)) (hchildren : ∀ child ∈ children, child.Opens)
    (hatEnd : ∀ node ∈ atEnd, node.Opens) (index : Nat) (token : CancelToken) :
    Opens (Phase.start (.mk props children atEnd atCut) index token)
      (Phase.start (.mk props children atEnd atCut) index token) := by
  have h := opens_of_entry (.mk props children atEnd atCut) index token
    (fun run => opens_begin props hchildren hatEnd run token) (by rw [Phase.start])
  rw [Phase.start]
  exact h

mutual

/-- The first turn of a tree. -/
theorem Node.opens : (node : Node Callable) → node.Opens
  | .pattern props phases => fun token => by
    rw [Node.start, Node.start]
    exact opens_patternStart ⟨props, phases, token⟩ (Phase.opens_starts phases)
  | .phase phase => fun token => by
    rw [Node.start, Node.start]
    exact Phase.opens phase 0 token
  | .action wait blocking children => fun token => by
    rw [Node.start, Node.start]
    exact (opensNothing_delayed wait token).opens.followedBy
      (opens_onSuccess (opens_together (Node.opens_of_mem children) token))
  | .sequence wait children => fun token => by
    rw [Node.start, Node.start]
    exact (opensNothing_delayed wait token).opens.followedBy
      (opens_onSuccess (opens_startInTurn (Node.opens_of_mem children) token))
  | .endBlock wait blocking children => fun token => by
    rw [Node.start, Node.start]
    exact (opensNothing_delayed wait token).opens.followedBy
      (opens_onSuccess (opens_together (Node.opens_of_mem children) token))
  | .finish child => fun token => by
    rw [Node.start, Node.start]
    exact Node.opens child token
  | .leaf leaf => fun token => by
    rw [Node.start, Node.start]
    exact (opensNothing_leafStart leaf token).opens

theorem Node.opens_of_mem : (children : List (Node Callable)) → ∀ child ∈ children, child.Opens
  | [], _, h => by cases h
  | node :: rest, child, h =>
    (List.mem_cons.1 h).elim (fun heq => heq ▸ Node.opens node) (Node.opens_of_mem rest child)

theorem Node.opens_of_some : (block : Option (Node Callable)) → ∀ node ∈ block, node.Opens
  | none, _, h => by cases h
  | some node, _, h => by
    cases h
    exact Node.opens node

/-- The first turn of a phase. -/
theorem Phase.opens : (phase : Phase Callable) → (index : Nat) → (token : CancelToken) →
    Opens (phase.start index token) (phase.start index token)
  | .mk props children atEnd atCut, index, token =>
    opens_phaseStart props atCut (Node.opens_of_mem children) (Node.opens_of_some atEnd) index token

/-- The first turns of the phases of a pattern. -/
theorem Phase.opens_starts : (phases : List (Phase Callable)) →
    OpensStarts (Phase.starts phases) (Phase.starts phases)
  | [] => fun _ => .none
  | phase :: rest => by
    rw [Phase.starts, Phase.starts]
    intro place
    cases place with
    | zero => exact .some fun index token => Phase.opens phase index token
    | succ place => exact Phase.opens_starts rest place

end

/-! ### Activities -/

/-- The turn after a part that is over. -/
theorem opens_apply (next : Continuation) (answer : Except MachineError Unit) :
    Opens (next.apply answer) (next.apply answer) := by
  cases next with
  | sequence rest token => exact opens_onSuccess (opens_startInTurn (Node.opens_of_mem rest) token) answer
  | spread blocking children token =>
    exact opens_onSuccess (opens_together (Node.opens_of_mem children) token) answer
  | hold stays token => exact opens_onSuccess (opensNothing_afterChildren stays token).opens answer
  | settle run => exact opens_settle (opens_startOption (Node.opens_of_some _) run.token) answer
  | enterPhase run index =>
    have hplace := Phase.opens_starts run.phases index
    simp only [Continuation.apply]
    generalize (Phase.starts run.phases : PatternRun.Starts Watched)[index]? = start,
      (Phase.starts run.phases : PatternRun.Starts (World.M Activity))[index]? = start' at hplace ⊢
    cases hplace with
    | none => exact opens_onSuccess (opens_done _) answer
    | some hstart =>
      exact opens_onSuccess (opens_enter (hstart index run.token)
        (opens_visit (Phase.opens_starts run.phases) (some index))) answer
  | nextPhase run index => exact opens_onSuccess (opens_visit (Phase.opens_starts run.phases) (some index)) answer
  | closeBoss boss => exact opens_closeBoss boss answer
  | expire source =>
    have hexpire : OpensNothing (Stage.perform (.expire source)) (Stage.perform (.expire source)) :=
      opensNothing_perform (S := fun _ => True) (fun _ _ _ h => by cases h) (ensures_expire source)
    exact opens_onSuccess (hexpire.before fun _ => opens_done _) answer
  | advanceTimers token =>
    have hpass : Ensures (fun _ => True) (fun _ => True) (fun _ => True) World.passFrame :=
      ensures_get.andThen fun _ => ensures_updateHosts _
    exact opens_onSuccess ((opensNothing_change hpass).before fun _ =>
      (opensNothing_wait (.frames 1 token)).opens.followedBy opens_done) answer
  | report =>
    have hkeep : Ensures (fun _ => True) (fun _ => True) (fun _ => True) (World.keepOutcome answer) :=
      ensures_update (fun _ => quietlyAdds_refl _) fun _ => List.prefix_refl _
    exact (opensNothing_change hkeep).before fun _ => opens_done _

mutual

/-- The turn of an activity. -/
theorem Activity.opens_turn : (a : Activity) → Opens a.turn a.turn
  | .start node token => by
    rw [Activity.turn, Activity.turn]
    exact Node.opens node token
  | .wait pause => by
    rw [Activity.turn, Activity.turn]
    exact (opensNothing_wait pause).opens
  | .andThen first next => by
    rw [Activity.turn, Activity.turn]
    exact (Activity.opens_turn first).followedBy (opens_apply next)
  | .join parts => by
    rw [Activity.turn, Activity.turn]
    exact opens_ofParts (Activity.opens_of_mem parts)
  | .stuck => by
    rw [Activity.turn, Activity.turn]
    exact records_pure _

theorem Activity.opens_of_mem : (parts : List Activity) → ∀ a ∈ parts, Opens a.turn a.turn
  | [], _, h => by cases h
  | part :: rest, a, h =>
    (List.mem_cons.1 h).elim (fun heq => heq ▸ Activity.opens_turn part) (Activity.opens_of_mem rest a)

end

/-- The turn of a task comes to each phase that starts in it. -/
theorem Activity.exists_enters {a : Activity} {p : Machine} {note : Note} {phase : Phase Callable} {index : Nat}
    {T : CancelToken} (h : note ∈ a.notes p) (hnote : note.deed = .enter phase index T) :
    ∃ layers, Step.Enters (phase.start index T) note.before a.turn p layers := by
  obtain ⟨more, hrun, -, hmore⟩ := a.opens_turn [] p
  rw [Activity.notes, Watched.watch, hrun] at h
  exact hmore note (by simpa using h) phase index T hnote

end Turns

end Barrage
