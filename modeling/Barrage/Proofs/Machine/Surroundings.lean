import Barrage.Proofs.Machine.Bystanders

/-!
# Where a part of a task stands

A part of a task seldom takes its turns alone. Something follows it in its task, and in a blocking action other parts
go on beside it: in every frame those before it take their turns first, and those after it afterwards. None of this
matters for the part itself as long as it keeps its place. It loses its place if a part beside it ends with an error,
since the action is over then and all its parts are dropped; and it never had one in an action of too many children,
which are looked at only once.

So a task is a part of it with layers around it, the innermost one first, and a turn of the task goes through the
layers to the part and back. What the parts beside it do on the way in and out is what bystanders do, if they are such.

## Main definitions

* `Layer`, `Activity.inside`: what stands around a part of a task, and a part with all that stands around it
* `Layer.leadAll`, `Layer.trailAll`: the turns of the parts beside it, before and after its own
* `Step.Enters`: a turn comes to a certain point of its task

## Main results

* `Step.Enters.run`: a turn is what it does at the point that it comes to, and what follows only adds
* `Activity.enters_inside`: the turn of a task comes to the part that stands in it
* `Layer.leadAll_undisturbed`, `Layer.trailAll_undisturbed`: what bystanders beside a part do
* `Layer.leadAll_of_plain`, `Layer.trailAll_of_plain`: plain parts make no part beside them lose its place
-/

namespace Barrage

/-- What stands directly around a part of a task. -/
inductive Layer where
  /-- What follows the part. -/
  | followed (next : Continuation)
  /-- The other parts of a join, before and after it. -/
  | beside (before after : List Activity)
  /-- So many parts at the same time that each of them is looked at only once. -/
  | crowded

/-- The turns of parts that go on side by side: what is left of them, and the run after them. -/
abbrev Activity.stepParts (parts : List Activity) (p : Machine) : Except MachineError (List Activity) × Machine :=
  (Activity.turnParts parts : World.M Activity (Except MachineError (List Activity))).run p

/-- What is left of some parts after their turns, and the run after them, unless one of them ends with an error. -/
def Activity.partsLeft? (parts : List Activity) (p : Machine) : Option (List Activity × Machine) :=
  match Activity.stepParts parts p with
  | (.ok left, q) => some (left, q)
  | (.error _, _) => none

namespace Layer

/-- A part with a layer around it. -/
def around (a : Activity) : Layer → Activity
  | followed next => .andThen a next
  | beside before after => .join (before ++ a :: after)
  | crowded => .stuck

/-- The turns of what stands before a part, unless they end with an error. -/
def lead (p : Machine) : Layer → Option (Layer × Machine)
  | followed next => some (.followed next, p)
  | beside before after => (Activity.partsLeft? before p).map fun (left, q) => (.beside left after, q)
  | crowded => none

/-- The turns of what stands after a part that goes on, unless they end with an error. -/
def trail (p : Machine) : Layer → Option (Layer × Machine)
  | followed next => some (.followed next, p)
  | beside before after => (Activity.partsLeft? after p).map fun (left, q) => (.beside before left, q)
  | crowded => none

/-- The turns of all that stands before a part, from the outermost layer inwards. -/
def leadAll : List Layer → Machine → Option (List Layer × Machine)
  | [], p => some ([], p)
  | layer :: outer, p => do
    let (outer, p) ← leadAll outer p
    let (layer, p) ← layer.lead p
    return (layer :: outer, p)

/-- The turns of all that stands after a part that goes on, from the innermost layer outwards. -/
def trailAll : List Layer → Machine → Option (List Layer × Machine)
  | [], p => some ([], p)
  | layer :: outer, p => do
    let (layer, p) ← layer.trail p
    let (outer, p) ← trailAll outer p
    return (layer :: outer, p)

end Layer

/-- A part of a task with all that stands around it. -/
def Activity.inside (a : Activity) (layers : List Layer) : Activity := layers.foldl Layer.around a

theorem Activity.inside_append (a : Activity) (inner outer : List Layer) :
    a.inside (inner ++ outer) = (a.inside inner).inside outer := List.foldl_append

/-! ### Turns of parts -/

section Parts

variable {p q r : Machine} {before left after : List Activity} {layer layer' : Layer} {layers layers' : List Layer}

theorem Activity.partsLeft?_eq_some_iff {parts : List Activity} :
    Activity.partsLeft? parts p = some (left, q) ↔ Activity.stepParts parts p = (.ok left, q) := by
  unfold Activity.partsLeft?
  generalize Activity.stepParts parts p = result
  obtain ⟨answer, r⟩ := result
  cases answer with
  | error e => simp
  | ok rest => simp

theorem Activity.stepParts_nil (p : Machine) : Activity.stepParts [] p = (.ok [], p) := by
  rw [Activity.stepParts, Activity.turnParts]
  rfl

theorem Activity.stepParts_cons (part : Activity) (rest : List Activity) (p : Machine) :
    Activity.stepParts (part :: rest) p =
      match (part.step p).1 with
      | .done (.error e) => (.error e, (part.step p).2)
      | .done (.ok ()) => Activity.stepParts rest (part.step p).2
      | .waiting w => ((Activity.stepParts rest (part.step p).2).1.map (w :: ·),
          (Activity.stepParts rest (part.step p).2).2) := by
  rw [Activity.stepParts, Activity.turnParts]
  change ((part.step p).1.collect (Activity.turnParts rest) : World.M Activity _).run (part.step p).2 = _
  rcases (part.step p).1 with (e | -) | w <;> rfl

/-- The turns of the first parts, and then those of the others. -/
theorem Activity.stepParts_append (h : Activity.partsLeft? before p = some (left, q)) (rest : List Activity) :
    Activity.stepParts (before ++ rest) p =
      ((Activity.stepParts rest q).1.map (left ++ ·), (Activity.stepParts rest q).2) := by
  rw [Activity.partsLeft?_eq_some_iff] at h
  induction before generalizing p left with
  | nil =>
    rw [Activity.stepParts_nil] at h
    cases h
    rw [List.nil_append]
    generalize Activity.stepParts rest q = result
    obtain ⟨answer, r⟩ := result
    cases answer <;> rfl
  | cons part before ih =>
    rw [Activity.stepParts_cons] at h
    rw [List.cons_append, Activity.stepParts_cons]
    generalize part.step p = result at h ⊢
    obtain ⟨turn, r⟩ := result
    match turn with
    | .done (.error e) => cases h
    | .done (.ok ()) => exact ih h
    | .waiting w =>
      dsimp only at h ⊢
      rcases hbefore : Activity.stepParts before r with ⟨answer, s⟩
      rw [hbefore] at h
      cases answer with
      | error e => cases h
      | ok others =>
        obtain ⟨rfl, rfl⟩ : w :: others = left ∧ s = q := by simpa [Except.map] using h
        rw [ih hbefore]
        generalize Activity.stepParts rest s = result
        obtain ⟨answer, r⟩ := result
        cases answer <;> rfl

/-- The children of a blocking action start as its parts. -/
theorem Node.startParts_eq {m : Type → Type} [Stage m] (children : List (Node Callable)) (token : CancelToken) :
    (Node.startParts children token : m _) = Activity.turnParts (children.map fun child => .start child token) := by
  induction children with
  | nil => rw [Node.startParts, List.map_nil, Activity.turnParts]
  | cons node rest ih => rw [Node.startParts, ih, List.map_cons, Activity.turnParts, Activity.turn]

/-- Parts that take their turns only add to a run. -/
theorem Activity.stepParts_advances (parts : List Activity) (p : Machine) :
    p.Advances (fun _ => True) (Activity.stepParts parts p).2 :=
  ((Activity.shows_turnParts (k := Activity.listRank parts) parts fun a ha =>
    ⟨a.under_none, Activity.listRank_le_iff.1 (Nat.le_refl _) a ha⟩).advances (p := p) trivial).1.mono fun _ _ => trivial

theorem Layer.leadAll_cons_iff :
    Layer.leadAll (layer :: layers) p = some (layers', r) ↔ ∃ inner outer q,
      Layer.leadAll layers p = some (outer, q) ∧ layer.lead q = some (inner, r) ∧ layers' = inner :: outer := by
  simp only [Layer.leadAll, Option.bind_eq_bind, Option.bind_eq_some_iff, Prod.exists, Option.pure_def,
    Option.some.injEq, Prod.mk.injEq]
  constructor
  · rintro ⟨outer, q, hlead, inner, r', hinner, rfl, rfl⟩
    exact ⟨inner, outer, q, hlead, hinner, rfl⟩
  · rintro ⟨inner, outer, q, hlead, hinner, rfl⟩
    exact ⟨outer, q, hlead, inner, r, hinner, rfl, rfl⟩

theorem Layer.trailAll_cons_iff :
    Layer.trailAll (layer :: layers) p = some (layers', r) ↔ ∃ inner outer q,
      layer.trail p = some (inner, q) ∧ Layer.trailAll layers q = some (outer, r) ∧ layers' = inner :: outer := by
  simp only [Layer.trailAll, Option.bind_eq_bind, Option.bind_eq_some_iff, Prod.exists, Option.pure_def,
    Option.some.injEq, Prod.mk.injEq]
  constructor
  · rintro ⟨inner, q, hinner, outer, r', htrail, rfl, rfl⟩
    exact ⟨inner, outer, q, hinner, htrail, rfl⟩
  · rintro ⟨inner, outer, q, hinner, htrail, rfl⟩
    exact ⟨inner, q, hinner, outer, r, htrail, rfl, rfl⟩

/-- What stands before a part only adds to a run. -/
theorem Layer.advances_of_leadAll (h : Layer.leadAll layers p = some (layers', q)) :
    p.Advances (fun _ => True) q := by
  induction layers generalizing layers' q with
  | nil =>
    cases h
    exact .refl _
  | cons layer layers ih =>
    obtain ⟨inner, outer, r, houter, hinner, -⟩ := Layer.leadAll_cons_iff.1 h
    refine (ih houter).trans ?_
    cases layer with
    | followed next =>
      cases hinner
      exact .refl _
    | beside before after =>
      obtain ⟨⟨left, s⟩, hleft, heq⟩ := Option.map_eq_some_iff.1 hinner
      cases heq
      have hadvances := Activity.stepParts_advances before r
      rwa [Activity.partsLeft?_eq_some_iff.1 hleft] at hadvances
    | crowded => cases hinner

/-- What stands after a part takes its turns layer by layer. -/
theorem Layer.exists_of_trailAll_append {outer : List Layer}
    (h : Layer.trailAll (layers ++ outer) p = some (layers', r)) : ∃ inner outer' q,
      Layer.trailAll layers p = some (inner, q) ∧ Layer.trailAll outer q = some (outer', r) ∧
      layers' = inner ++ outer' := by
  induction layers generalizing p layers' with
  | nil => exact ⟨[], layers', p, rfl, h, rfl⟩
  | cons layer layers ih =>
    obtain ⟨first, rest, s, hfirst, hrest, rfl⟩ := Layer.trailAll_cons_iff.1 h
    obtain ⟨inner, outer', q, hinner, houter, rfl⟩ := ih hrest
    exact ⟨first :: inner, outer', q, Layer.trailAll_cons_iff.2 ⟨first, inner, s, hfirst, hinner, rfl⟩, houter, rfl⟩

end Parts

/-! ### Points of a turn -/

/-- What follows only adds to a run. -/
theorem Continuation.advances_apply (next : Continuation) (answer : Except MachineError Unit) (p : Machine) :
    p.Advances (fun _ => True) ((next.apply answer : Step (World.M Activity)).run p).2 := by
  have hunder : next.Under .none := by cases next <;> first | exact CancelToken.includes_none _ | trivial
  exact ((shows_apply hunder (Nat.le_refl _) answer).advances (p := p) trivial).1.mono fun _ _ => trivial

/-- A turn that is taken in some run comes to a certain point of its task, with layers around it of which all that
stands before the point has taken its turn. What comes before and what follows only adds to the run. -/
inductive Step.Enters (point : Step (World.M Activity)) (q : Machine) :
    Step (World.M Activity) → Machine → List Layer → Prop
  | here : Step.Enters point q point q []
  | before {α : Type} {y : World.M Activity α} {g : α → Step (World.M Activity)} {p : Machine} {layers : List Layer}
    (hy : p.Advances (fun _ => True) (y.run p).2) (h : Step.Enters point q (g (y.run p).1) (y.run p).2 layers) :
    Step.Enters point q (y >>= g) p layers
  | followed {y : Step (World.M Activity)} {next : Continuation} {go : AnswerStep (World.M Activity)} {p : Machine}
    {layers : List Layer} (hgo : ∀ answer (p : Machine), p.Advances (fun _ => True) ((go answer).run p).2)
    (h : Step.Enters point q y p layers) :
    Step.Enters point q (do (← y).followedBy next go) p (layers ++ [.followed next])
  | beside {part : Activity} {before left after : List Activity} {p r : Machine} {layers : List Layer}
    (hbefore : Activity.partsLeft? before p = some (left, r)) (h : Step.Enters point q part.turn r layers) :
    Step.Enters point q (do return .ofParts (← Activity.turnParts (before ++ part :: after))) p
      (layers ++ [.beside left after])
  | crowded {node : Node Callable} {rest : List (Node Callable)} {token : CancelToken} {finished : Bool} {p : Machine}
    {layers : List Layer} (h : Step.Enters point q (node.start token) p layers) :
    Step.Enters point q (Node.startMany finished (node :: rest) token) p (layers ++ [.crowded])

namespace Step

variable {point y z : Step (World.M Activity)} {p q r : Machine} {layers outer : List Layer}

/-- Parts of which one comes to a point in its turn. -/
theorem run_beside {part rest : Activity} {before left after left' : List Activity} {s t : Machine}
    (hbefore : Activity.partsLeft? before p = some (left, q)) (hpart : part.step q = (.waiting rest, s))
    (hafter : Activity.partsLeft? after s = some (left', t)) :
    (do return .ofParts (← Activity.turnParts (before ++ part :: after)) : Step (World.M Activity)).run p =
      (.waiting (.join (left ++ rest :: left')), t) := by
  change (Turn.ofParts (Activity.stepParts (before ++ part :: after) p).1,
    (Activity.stepParts (before ++ part :: after) p).2) = _
  rw [Activity.stepParts_append hbefore, Activity.stepParts_cons, hpart]
  dsimp only
  rw [Activity.partsLeft?_eq_some_iff.1 hafter]
  cases left <;> rfl

/-- The parts before a point only add to a run, and so do all parts together. -/
theorem advances_beside (part : Activity) (after : List Activity) {before left : List Activity}
    (hbefore : Activity.partsLeft? before p = some (left, q)) :
    p.Advances (fun _ => True) q ∧ Machine.Advances (fun _ => True) (part.step q).2
      ((do return .ofParts (← Activity.turnParts (before ++ part :: after)) : Step (World.M Activity)).run p).2 := by
  have hlead := Activity.stepParts_advances before p
  rw [Activity.partsLeft?_eq_some_iff.1 hbefore] at hlead
  refine ⟨hlead, ?_⟩
  change Machine.Advances _ _ (Activity.stepParts (before ++ part :: after) p).2
  rw [Activity.stepParts_append hbefore, Activity.stepParts_cons]
  generalize part.step q = result
  obtain ⟨turn, s⟩ := result
  match turn with
  | .done (.error _) => exact .refl _
  | .done (.ok ()) => exact Activity.stepParts_advances after s
  | .waiting _ => exact Activity.stepParts_advances after s

/-- Many trees that start only add to a run. -/
theorem advances_startMany (finished : Bool) (children : List (Node Callable)) (token : CancelToken) (p : Machine) :
    p.Advances (fun _ => True) ((Node.startMany finished children token : Step (World.M Activity)).run p).2 :=
  ((shows_startMany children finished token token.includes_none (Nat.le_refl _)).advances (p := p) trivial).1.mono
    fun _ _ => trivial

/-- What comes before the point only adds to the run. The turn is what it does at the point, as long as that is not
over and all that stands after it goes on as well, and what follows only adds. -/
theorem Enters.run (h : Step.Enters point q y p layers) :
    p.Advances (fun _ => True) q ∧
    (∀ rest layers' r, (point.run q).1 = .waiting rest →
      Layer.trailAll layers (point.run q).2 = some (layers', r) → y.run p = (.waiting (rest.inside layers'), r)) ∧
    Machine.Advances (fun _ => True) (point.run q).2 (y.run p).2 := by
  -- Each step of the way to the point puts at most one layer around those that are there, so what stands after the
  -- point goes on if the inner layers do and then this one.
  induction h with
  | here =>
    refine ⟨.refl _, fun rest layers' r hrest htrail => ?_, .refl _⟩
    cases htrail
    exact Prod.ext hrest rfl
  | before hy _ ih => exact ⟨hy.trans ih.1, ih.2.1, ih.2.2⟩
  | @followed y next go p layers hgo _ ih =>
    obtain ⟨hbefore, hwaits, hadds⟩ := ih
    refine ⟨hbefore, fun rest layers' r hrest htrail => ?_, ?_⟩
    · obtain ⟨inner, outer, s, hinner, houter, rfl⟩ := Layer.exists_of_trailAll_append htrail
      cases houter
      change ((y.run p).1.followedBy next go).run (y.run p).2 = _
      rw [hwaits rest inner r hrest hinner, Activity.inside_append]
      rfl
    · refine hadds.trans ?_
      change Machine.Advances _ _ (((y.run p).1.followedBy next go).run (y.run p).2).2
      cases (y.run p).1 with
      | done answer => exact hgo answer _
      | waiting rest => exact .refl _
  | @beside part before left after p r layers hbefore _ ih =>
    obtain ⟨hlead, hwaits, hadds⟩ := ih
    obtain ⟨hbefore', hafter⟩ := advances_beside part after hbefore
    refine ⟨hbefore'.trans hlead, fun rest layers' s hrest htrail => ?_, hadds.trans hafter⟩
    obtain ⟨inner, outer, t, hinner, houter, rfl⟩ := Layer.exists_of_trailAll_append htrail
    obtain ⟨last, nothing, u, hlast, hnothing, rfl⟩ := Layer.trailAll_cons_iff.1 houter
    cases hnothing
    obtain ⟨⟨left', v⟩, hleft', heq⟩ := Option.map_eq_some_iff.1 hlast
    cases heq
    rw [run_beside hbefore (hwaits rest inner t hrest hinner) hleft', Activity.inside_append]
    rfl
  | @crowded node others token finished p layers _ ih =>
    -- A child of a crowded action never goes on, so there is nothing to show of its waits.
    obtain ⟨hlead, -, hadds⟩ := ih
    refine ⟨hlead, fun rest layers' r hrest htrail => ?_, hadds.trans ?_⟩
    · obtain ⟨inner, outer, s, -, houter, -⟩ := Layer.exists_of_trailAll_append htrail
      cases houter
    · rw [Node.startMany, StateT.run_bind]
      generalize (node.start token : Step (World.M Activity)).run p = result
      obtain ⟨turn, s⟩ := result
      match turn, finished with
      | .done (.ok ()), finished => exact advances_startMany finished others token s
      | .done (.error _), true => exact .refl _
      | .done (.error _), false => exact advances_startMany false others token s
      | .waiting _, _ => exact advances_startMany false others token s

/-- A point that is come to at a point of a turn. -/
theorem Enters.trans (h : Step.Enters point q y p layers) (houter : Step.Enters y p z r outer) :
    Step.Enters point q z r (layers ++ outer) := by
  induction houter with
  | here => rwa [List.append_nil]
  | before hy _ ih => exact .before hy ih
  | followed hgo _ ih => rw [← List.append_assoc]; exact .followed hgo ih
  | beside hbefore _ ih => rw [← List.append_assoc]; exact .beside hbefore ih
  | crowded _ ih => rw [← List.append_assoc]; exact .crowded ih

end Step

/-- A blocking action without a delay that starts comes to each of its children, if those before it go on. -/
theorem Step.Enters.together {point : Step (World.M Activity)} {seconds : Float} {token : CancelToken}
    (before after : List (Node Callable)) {node : Node Callable} {left : List Activity} {layers : List Layer}
    {p q r : Machine} (hdelay : (delayed seconds token : Step (World.M Activity)).run p = (.finished, p))
    (hfew : (before ++ node :: after).length ≤ joinLimit)
    (hbefore : Activity.partsLeft? (before.map fun child => .start child token) p = some (left, r))
    (h : Step.Enters point q (node.start token) r layers) :
    Step.Enters point q ((Node.action seconds true (before ++ node :: after)).start token) p
      (layers ++ [.beside left (after.map fun child => .start child token)]) := by
  rw [Node.start]
  refine .before ?_ ?_
  · rw [hdelay]
    exact .refl _
  rw [hdelay]
  change Step.Enters _ _ (Node.together true (before ++ node :: after) token _ _) _ _
  rw [Node.together, if_pos rfl, if_pos hfew, Node.startParts_eq, List.map_append, List.map_cons]
  refine .beside hbefore ?_
  rwa [Activity.turn]

/-- The turn of a task comes to the part that stands in it, if all that stands before it goes on. -/
theorem Activity.enters_inside {layers layers' : List Layer} {p q : Machine} (a : Activity)
    (h : Layer.leadAll layers p = some (layers', q)) :
    Step.Enters a.turn q (a.inside layers).turn p layers' := by
  induction layers generalizing a layers' q with
  | nil =>
    cases h
    exact .here
  | cons layer layers ih =>
    obtain ⟨inner, outer, r, houter, hinner, rfl⟩ := Layer.leadAll_cons_iff.1 h
    change Step.Enters a.turn q _ p ([inner] ++ outer)
    refine Step.Enters.trans ?_ (ih (layer.around a) houter)
    cases layer with
    | followed next =>
      cases hinner
      rw [Layer.around, Activity.turn]
      exact Step.Enters.followed next.advances_apply .here
    | beside before after =>
      obtain ⟨⟨left, s⟩, hleft, heq⟩ := Option.map_eq_some_iff.1 hinner
      cases heq
      rw [Layer.around, Activity.turn]
      exact Step.Enters.beside hleft .here
    | crowded => cases hinner

/-! ### Bystanders beside a part -/

/-- A part of a frame in which only bystanders take their turns. -/
structure Machine.Undisturbed (J : CancelToken) (p q : Machine) : Prop where
  spares : p.Spares J q
  spawned : ∃ new, q.spawned = p.spawned ++ new ∧ ∀ a ∈ new, a.Apart J

/-- What goes on beside a part has nothing to do with whatever depends on a token. What follows may be anything. -/
def Layer.Apart (J : CancelToken) : Layer → Prop
  | followed _ => True
  | beside before after => ∀ a ∈ before ++ after, a.Apart J
  | crowded => True

section Apart

variable {J : CancelToken} {p q r : Machine} {layer layer' : Layer} {layers layers' : List Layer}

theorem Machine.Undisturbed.refl (J : CancelToken) (p : Machine) : p.Undisturbed J p :=
  ⟨.refl J p, [], (List.append_nil _).symm, by simp⟩

theorem Machine.Undisturbed.trans (hpq : p.Undisturbed J q) (hqr : q.Undisturbed J r) : p.Undisturbed J r := by
  obtain ⟨hspares, new, hnew, hapart⟩ := hpq
  obtain ⟨hspares', more, hmore, hapart'⟩ := hqr
  refine ⟨hspares.trans hspares', new ++ more, by rw [hmore, hnew, List.append_assoc], fun a ha => ?_⟩
  exact (List.mem_append.1 ha).elim (hapart a) (hapart' a)

/-- Bystanders side by side. -/
theorem Activity.undisturbed_of_partsLeft? {parts left : List Activity} (h : ∀ a ∈ parts, a.Apart J)
    (hleft : Activity.partsLeft? parts p = some (left, q)) : p.Undisturbed J q ∧ ∀ a ∈ left, a.Apart J := by
  obtain ⟨hspares, hspawned, hapart⟩ := Activity.sparing_turnParts parts h p
  have hrun := Activity.partsLeft?_eq_some_iff.1 hleft
  rw [Activity.stepParts] at hrun
  rw [hrun] at hspares hspawned hapart
  exact ⟨⟨hspares, hspawned⟩, hapart⟩

theorem Layer.Apart.lead (h : layer.Apart J) (hlead : layer.lead p = some (layer', q)) :
    p.Undisturbed J q ∧ layer'.Apart J := by
  cases layer with
  | followed next =>
    cases hlead
    exact ⟨.refl J _, trivial⟩
  | beside before after =>
    obtain ⟨⟨left, r⟩, hleft, heq⟩ := Option.map_eq_some_iff.1 hlead
    cases heq
    obtain ⟨hundisturbed, hapart⟩ :=
      Activity.undisturbed_of_partsLeft? (fun a ha => h a (List.mem_append_left after ha)) hleft
    exact ⟨hundisturbed, fun a ha => (List.mem_append.1 ha).elim (hapart a) fun ha =>
      h a (List.mem_append_right before ha)⟩
  | crowded => cases hlead

theorem Layer.Apart.trail (h : layer.Apart J) (htrail : layer.trail p = some (layer', q)) :
    p.Undisturbed J q ∧ layer'.Apart J := by
  cases layer with
  | followed next =>
    cases htrail
    exact ⟨.refl J _, trivial⟩
  | beside before after =>
    obtain ⟨⟨left, r⟩, hleft, heq⟩ := Option.map_eq_some_iff.1 htrail
    cases heq
    obtain ⟨hundisturbed, hapart⟩ :=
      Activity.undisturbed_of_partsLeft? (fun a ha => h a (List.mem_append_right before ha)) hleft
    exact ⟨hundisturbed, fun a ha => (List.mem_append.1 ha).elim (fun ha =>
      h a (List.mem_append_left after ha)) (hapart a)⟩
  | crowded => cases htrail

/-- What bystanders before a part do in its frame. -/
theorem Layer.leadAll_undisturbed (h : ∀ layer ∈ layers, layer.Apart J)
    (hlead : Layer.leadAll layers p = some (layers', q)) :
    p.Undisturbed J q ∧ ∀ layer ∈ layers', layer.Apart J := by
  induction layers generalizing layers' q with
  | nil =>
    cases hlead
    exact ⟨.refl J _, by simp⟩
  | cons layer layers ih =>
    obtain ⟨inner, outer, r, houter, hinner, rfl⟩ := Layer.leadAll_cons_iff.1 hlead
    obtain ⟨hundisturbed, hapart⟩ := ih (fun other hother => h other (List.mem_cons_of_mem _ hother)) houter
    obtain ⟨hundisturbed', hapart'⟩ := (h layer List.mem_cons_self).lead hinner
    exact ⟨hundisturbed.trans hundisturbed', List.forall_mem_cons.2 ⟨hapart', hapart⟩⟩

/-- What bystanders after a part do in its frame. -/
theorem Layer.trailAll_undisturbed (h : ∀ layer ∈ layers, layer.Apart J)
    (htrail : Layer.trailAll layers p = some (layers', q)) :
    p.Undisturbed J q ∧ ∀ layer ∈ layers', layer.Apart J := by
  induction layers generalizing layers' p with
  | nil =>
    cases htrail
    exact ⟨.refl J _, by simp⟩
  | cons layer layers ih =>
    obtain ⟨inner, outer, r, hinner, houter, rfl⟩ := Layer.trailAll_cons_iff.1 htrail
    obtain ⟨hundisturbed, hapart⟩ := (h layer List.mem_cons_self).trail hinner
    obtain ⟨hundisturbed', hapart'⟩ := ih (fun other hother => h other (List.mem_cons_of_mem _ hother)) houter
    exact ⟨hundisturbed.trans hundisturbed', List.forall_mem_cons.2 ⟨hapart, hapart'⟩⟩

end Apart

/-! ### Plain parts beside a part -/

/-- What goes on beside a part are plain trees under a token that the part's own one includes. -/
def Layer.Plain (E : Callable → Prop) (F : Forecast) (T : CancelToken) : Layer → Prop
  | followed _ => True
  | beside before after => ∃ T' : CancelToken, T.Includes T' ∧ ∀ a ∈ before ++ after, a.Plain E F T'
  | crowded => False

section Plain

variable {E : Callable → Prop} {F : Forecast} {T T' : CancelToken} {p : Machine} {layer : Layer} {layers : List Layer}

/-- Plain trees side by side do not fail as long as a token is live that includes theirs. -/
theorem Activity.exists_partsLeft? {parts : List Activity} (hT : T.Includes T') (h : ∀ a ∈ parts, a.Plain E F T')
    (hp : p.Goes E F T) :
    ∃ left q, Activity.partsLeft? parts p = some (left, q) ∧ q.Goes E F T ∧ ∀ a ∈ left, a.Plain E F T' := by
  have hp' : p.Goes E F T' := ⟨fun hcancelled => hp.live (hT.isCancelled hcancelled), hp.right⟩
  obtain ⟨hdoes, left, hleft, hplain, -⟩ := Activity.realizes_turnParts parts h p.clock.frame p hp' rfl
  refine ⟨left, _, Activity.partsLeft?_eq_some_iff.2 (Prod.ext hleft rfl), ⟨?_, (hp'.does hdoes).right⟩, hplain⟩
  rw [hdoes.sources]
  exact hp.live

theorem Layer.Plain.lead (h : layer.Plain E F T) (hp : p.Goes E F T) :
    ∃ layer' q, layer.lead p = some (layer', q) ∧ q.Goes E F T ∧ layer'.Plain E F T := by
  cases layer with
  | followed next => exact ⟨_, _, rfl, hp, trivial⟩
  | beside before after =>
    obtain ⟨T', hT, hplain⟩ := h
    obtain ⟨left, q, hleft, hq, hleftPlain⟩ :=
      Activity.exists_partsLeft? hT (fun a ha => hplain a (List.mem_append_left after ha)) hp
    refine ⟨_, q, Option.map_eq_some_iff.2 ⟨_, hleft, rfl⟩, hq, T', hT, fun a ha => ?_⟩
    exact (List.mem_append.1 ha).elim (hleftPlain a) fun ha => hplain a (List.mem_append_right before ha)
  | crowded => exact h.elim

theorem Layer.Plain.trail (h : layer.Plain E F T) (hp : p.Goes E F T) :
    ∃ layer' q, layer.trail p = some (layer', q) ∧ q.Goes E F T ∧ layer'.Plain E F T := by
  cases layer with
  | followed next => exact ⟨_, _, rfl, hp, trivial⟩
  | beside before after =>
    obtain ⟨T', hT, hplain⟩ := h
    obtain ⟨left, q, hleft, hq, hleftPlain⟩ :=
      Activity.exists_partsLeft? hT (fun a ha => hplain a (List.mem_append_right before ha)) hp
    refine ⟨_, q, Option.map_eq_some_iff.2 ⟨_, hleft, rfl⟩, hq, T', hT, fun a ha => ?_⟩
    exact (List.mem_append.1 ha).elim (fun ha => hplain a (List.mem_append_left after ha)) (hleftPlain a)
  | crowded => exact h.elim

/-- Plain parts before a part go on while its token is live. -/
theorem Layer.leadAll_of_plain (h : ∀ layer ∈ layers, layer.Plain E F T) (hp : p.Goes E F T) :
    ∃ layers' q, Layer.leadAll layers p = some (layers', q) ∧ q.Goes E F T ∧ ∀ layer ∈ layers', layer.Plain E F T := by
  induction layers with
  | nil => exact ⟨[], p, rfl, hp, by simp⟩
  | cons layer layers ih =>
    obtain ⟨outer, r, houter, hr, hplain⟩ := ih fun other hother => h other (List.mem_cons_of_mem _ hother)
    obtain ⟨inner, q, hinner, hq, hplain'⟩ := (h layer List.mem_cons_self).lead hr
    exact ⟨inner :: outer, q, Layer.leadAll_cons_iff.2 ⟨inner, outer, r, houter, hinner, rfl⟩, hq,
      List.forall_mem_cons.2 ⟨hplain', hplain⟩⟩

/-- Plain parts after a part go on while its token is live. -/
theorem Layer.trailAll_of_plain (h : ∀ layer ∈ layers, layer.Plain E F T) (hp : p.Goes E F T) :
    ∃ layers' q, Layer.trailAll layers p = some (layers', q) ∧ q.Goes E F T ∧
      ∀ layer ∈ layers', layer.Plain E F T := by
  induction layers generalizing p with
  | nil => exact ⟨[], p, rfl, hp, by simp⟩
  | cons layer layers ih =>
    obtain ⟨inner, r, hinner, hr, hplain⟩ := (h layer List.mem_cons_self).trail hp
    obtain ⟨outer, q, houter, hq, hplain'⟩ := ih (fun other hother => h other (List.mem_cons_of_mem _ hother)) hr
    exact ⟨inner :: outer, q, Layer.trailAll_cons_iff.2 ⟨inner, outer, r, hinner, houter, rfl⟩, hq,
      List.forall_mem_cons.2 ⟨hplain, hplain'⟩⟩

end Plain

/-! ### Parts with nothing before them -/

/-- Nothing stands beside a part that takes its turn before it. -/
def Layer.First : Layer → Prop
  | followed _ => True
  | beside before _ => before = []
  | crowded => False

section First

variable {p q : Machine} {layers layers' : List Layer}

/-- A part with nothing before it has the first turn. -/
theorem Layer.leadAll_of_first (h : ∀ layer ∈ layers, layer.First) :
    Layer.leadAll layers p = some (layers, p) := by
  induction layers with
  | nil => rfl
  | cons layer layers ih =>
    refine Layer.leadAll_cons_iff.2 ⟨layer, layers, p, ih fun other hother => h other (List.mem_cons_of_mem _ hother),
      ?_, rfl⟩
    have hfirst := h layer List.mem_cons_self
    cases layer with
    | followed next => rfl
    | beside before after =>
      obtain rfl : before = [] := hfirst
      have hnone : Activity.partsLeft? [] p = some ([], p) :=
        Activity.partsLeft?_eq_some_iff.2 (Activity.stepParts_nil p)
      rw [Layer.lead, hnone]
      rfl
    | crowded => exact hfirst.elim

/-- What stands after a part stays after it. -/
theorem Layer.first_of_trailAll (h : ∀ layer ∈ layers, layer.First)
    (htrail : Layer.trailAll layers p = some (layers', q)) : ∀ layer ∈ layers', layer.First := by
  induction layers generalizing p layers' with
  | nil =>
    cases htrail
    simp
  | cons layer layers ih =>
    obtain ⟨inner, outer, r, hinner, houter, rfl⟩ := Layer.trailAll_cons_iff.1 htrail
    refine List.forall_mem_cons.2 ⟨?_, ih (fun other hother => h other (List.mem_cons_of_mem _ hother)) houter⟩
    have hfirst := h layer List.mem_cons_self
    cases layer with
    | followed next =>
      cases hinner
      trivial
    | beside before after =>
      obtain ⟨⟨left, s⟩, -, heq⟩ := Option.map_eq_some_iff.1 hinner
      cases heq
      exact hfirst
    | crowded => cases hinner

end First

/-! ### Turns of a part, frame by frame -/

/-- A part of a task in its turn: the turn that it takes, what stands around it then, and the run that it finds. -/
structure PartTurn where
  turn : Step (World.M Activity)
  layers : List Layer
  before : Machine

namespace PartTurn

/-- What comes of the turn of a part, and the run after it. -/
abbrev result (t : PartTurn) : Turn Activity × Machine := t.turn.run t.before

/-- The next turn of a part that goes on and keeps its place, if the next turn of its task finds some run. -/
def next? (t : PartTurn) (p : Machine) : Option PartTurn := do
  let rest ← t.result.1.left
  let (layers, _) ← Layer.trailAll t.layers t.result.2
  let (layers, q) ← Layer.leadAll layers p
  return ⟨rest.turn, layers, q⟩

section Runs

variable (acts : Nat → List Outside) (dt : Float) (m : Machine) (start : Nat) (first : PartTurn)

/-- The turns of a part of a task, frame by frame, given the first of them and the place of the task in its frame. -/
def turns : Nat → Option PartTurn
  | 0 => some first
  | r + 1 => do (← turns r).next? (← Machine.follow acts dt m start (r + 1)).before

/-- A part that goes on after some frame loses its place before its next turn: a part after it ends with an error in
that frame, or nothing looks at it any more, or a part before it ends with an error in the next frame. -/
def LosesPlace (r : Nat) : Prop :=
  ∃ t rest, turns acts dt m start first r = some t ∧ t.result.1 = .waiting rest ∧
    (Layer.trailAll t.layers t.result.2 = none ∨
      ∃ layers q poll, Layer.trailAll t.layers t.result.2 = some (layers, q) ∧
        Machine.follow acts dt m start (r + 1) = some poll ∧ Layer.leadAll layers poll.before = none)

end Runs

variable {acts : Nat → List Outside} {dt : Float} {m : Machine} {start : Nat} {first t : PartTurn} {r : Nat}
  {rest : Activity}

/-- The turns of a part are taken in the frames of its task. -/
theorem clock_of_turns (h : first.turns acts dt m start (r + 1) = some t) :
    t.before.clock = { m.clock with frame := m.clock.frame + (r + 1) } := by
  obtain ⟨last, -, h⟩ := Option.bind_eq_some_iff.1 h
  obtain ⟨poll, hpoll, h⟩ := Option.bind_eq_some_iff.1 h
  obtain ⟨rest, -, h⟩ := Option.bind_eq_some_iff.1 h
  obtain ⟨⟨layers, s⟩, -, h⟩ := Option.bind_eq_some_iff.1 h
  obtain ⟨⟨layers', q⟩, hlead, h⟩ := Option.bind_eq_some_iff.1 h
  cases h
  exact (Layer.advances_of_leadAll hlead).clock.trans (Machine.follow_clock hpoll)

/-- A part that goes on and does not lose its place. -/
theorem exists_trailAll (h : ¬ first.LosesPlace acts dt m start r) (ht : first.turns acts dt m start r = some t)
    (hrest : t.result.1 = .waiting rest) : ∃ layers q, Layer.trailAll t.layers t.result.2 = some (layers, q) := by
  cases htrail : Layer.trailAll t.layers t.result.2 with
  | none => exact absurd ⟨t, rest, ht, hrest, .inl htrail⟩ h
  | some result => exact ⟨result.1, result.2, rfl⟩

/-- A part keeps its place if all that stands around it goes on. -/
theorem not_losesPlace (ht : first.turns acts dt m start r = some t) {layers layers' : List Layer} {q q' : Machine}
    (htrail : Layer.trailAll t.layers t.result.2 = some (layers, q)) {poll : Machine.Poll}
    (hpoll : Machine.follow acts dt m start (r + 1) = some poll)
    (hlead : Layer.leadAll layers poll.before = some (layers', q')) : ¬ first.LosesPlace acts dt m start r := by
  rintro ⟨t', rest, ht', -, hlost⟩
  obtain rfl := Option.some.inj (ht.symm.trans ht')
  rw [htrail] at hlost
  rcases hlost with hlost | ⟨layers'', s, poll', heq, hpoll', hlost⟩
  · cases hlost
  · cases heq
    obtain rfl := Option.some.inj (hpoll.symm.trans hpoll')
    rw [hlead] at hlost
    cases hlost

theorem exists_leadAll (h : ¬ first.LosesPlace acts dt m start r) (ht : first.turns acts dt m start r = some t)
    (hrest : t.result.1 = .waiting rest) {layers : List Layer} {q : Machine}
    (htrail : Layer.trailAll t.layers t.result.2 = some (layers, q)) {poll : Machine.Poll}
    (hpoll : Machine.follow acts dt m start (r + 1) = some poll) :
    ∃ layers' q', Layer.leadAll layers poll.before = some (layers', q') := by
  cases hlead : Layer.leadAll layers poll.before with
  | none => exact absurd ⟨t, rest, ht, hrest, .inr ⟨layers, q, poll, htrail, hpoll, hlead⟩⟩ h
  | some result => exact ⟨result.1, result.2, rfl⟩

/-- The next turn of a part, if all that stands around it goes on. -/
theorem turns_succ (ht : first.turns acts dt m start r = some t) (hrest : t.result.1 = .waiting rest)
    {layers layers' : List Layer} {q q' : Machine} (htrail : Layer.trailAll t.layers t.result.2 = some (layers, q))
    {poll : Machine.Poll} (hpoll : Machine.follow acts dt m start (r + 1) = some poll)
    (hlead : Layer.leadAll layers poll.before = some (layers', q')) :
    first.turns acts dt m start (r + 1) = some ⟨rest.turn, layers', q'⟩ := by
  simp only [turns, ht, hpoll, next?, hrest, Turn.left, htrail, hlead, Option.bind_eq_bind, Option.bind_some,
    Option.pure_def]

end PartTurn

end Barrage
