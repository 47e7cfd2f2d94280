import Barrage.Machine.Run
import Mathlib.Data.Nat.Find

/-!
# Courses

What a tree of waits, emissions, sequences and parallel parts does can be told without any turns: when it
starts in some frame, it ends in a frame that the durations and conditions decide, or never, and on its way it
says certain things in certain frames. A sequence starts each child in the frame in which the one before it
ends, and parts that go on side by side end together with the last of them.

A forecast gives the values that the expressions of a tree have in each frame.

## Main definitions

* `Course`, `Timeline`: when a tree ends and what it says, for every frame in which it can start
* `Timeline.seq`, `Timeline.beside`: one after another, and side by side
* `Forecast`: the values of expressions, frame by frame
* `Node.timeline`, `Activity.timeline`: the courses of trees, and of trees on their way

## Main results

* `Node.causal_timeline`, `Activity.causal_timeline`: the courses of trees do not begin before they start, and are
  silent when they have ended
-/

namespace Barrage

/-- Something that a tree emits, and the frame in which it does. -/
structure Saying where
  frame : Nat
  label : String
  value : Value

/-- What a tree does once it has started. -/
structure Course where
  /-- The frame in which it ends, if it does. -/
  ends : Option Nat
  /-- What it says, in the order of the tree. -/
  sayings : List Saying := []

/-- What a tree does, for every frame in which it can start. -/
abbrev Timeline := Nat → Course

namespace Course

/-- What is said in some frame. -/
def now (c : Course) (frame : Nat) : List Saying := c.sayings.filter fun s => s.frame = frame

/-- The course without what is said in some frame. -/
def after (c : Course) (frame : Nat) : Course := { c with sayings := c.sayings.filter fun s => s.frame ≠ frame }

/-- Courses that start in some frame: they do not begin before it and are silent when they have ended. -/
structure From (c : Course) (start : Nat) : Prop where
  ends : ∀ e, c.ends = some e → start ≤ e
  sayings : ∀ s ∈ c.sayings, start ≤ s.frame
  silent : ∀ s ∈ c.sayings, ∀ e, c.ends = some e → s.frame ≤ e

end Course

namespace Timeline

/-- Over at once. -/
def immediate : Timeline := fun f => { ends := some f }

/-- Never over. -/
def never : Timeline := fun _ => { ends := none }

/-- Over after some frames. -/
def pause (frames : Nat) : Timeline := fun f => { ends := some (f + frames) }

open Classical in
/-- Over in the first frame in which something holds. -/
noncomputable def firstTime (holds : Nat → Bool) : Timeline := fun f =>
  { ends := if h : ∃ g, f ≤ g ∧ holds g then some (Nat.find h) else none }

/-- Over at once, with something said. -/
def say (label : String) (value : Nat → Value) : Timeline := fun f =>
  { ends := some f, sayings := [⟨f, label, value f⟩] }

/-- One after the other. -/
def seq (s t : Timeline) : Timeline := fun f =>
  match (s f).ends with
  | none => s f
  | some e => { ends := (t e).ends, sayings := (s f).sayings ++ (t e).sayings }

/-- The later of two ends. -/
def latest : Option Nat → Option Nat → Option Nat
  | some a, some b => some (max a b)
  | _, _ => none

/-- Side by side. -/
def beside (s t : Timeline) : Timeline := fun f =>
  { ends := latest (s f).ends (t f).ends, sayings := (s f).sayings ++ (t f).sayings }

/-- Timelines whose courses start when they do. -/
def Causal (t : Timeline) : Prop := ∀ f, (t f).From f

variable {s t : Timeline}

theorem seq_of_none {f : Nat} (h : (s f).ends = none) : s.seq t f = s f := by
  rw [seq, h]

theorem seq_of_some {f e : Nat} (h : (s f).ends = some e) :
    s.seq t f = { ends := (t e).ends, sayings := (s f).sayings ++ (t e).sayings } := by
  rw [seq, h]

theorem latest_eq_some_iff {a b : Option Nat} {e : Nat} :
    latest a b = some e ↔ ∃ x y, a = some x ∧ b = some y ∧ e = max x y := by
  cases a <;> cases b <;> simp [latest, eq_comm]

theorem firstTime_eq_some_iff {holds : Nat → Bool} {f e : Nat} :
    (firstTime holds f).ends = some e ↔ f ≤ e ∧ holds e ∧ ∀ g, f ≤ g → g < e → ¬ holds g := by
  classical
  unfold firstTime
  dsimp only
  split
  · rename_i h
    rw [Option.some.injEq, Nat.find_eq_iff]
    constructor
    · exact fun ⟨he, hmin⟩ => ⟨he.1, he.2, fun g hfg hge hg => hmin g hge ⟨hfg, hg⟩⟩
    · exact fun ⟨hfe, he, hmin⟩ => ⟨⟨hfe, he⟩, fun g hge hg => hmin g hg.1 hge hg.2⟩
  · rename_i h
    simp only [reduceCtorEq, false_iff]
    exact fun ⟨hfe, he, _⟩ => h ⟨e, hfe, he⟩

theorem causal_immediate : Causal immediate := fun f =>
  ⟨fun e h => Nat.le_of_eq (Option.some.inj h), by simp [immediate], by simp [immediate]⟩

theorem causal_never : Causal never := fun f => ⟨by simp [never], by simp [never], by simp [never]⟩

theorem causal_pause (frames : Nat) : Causal (pause frames) := fun f =>
  ⟨fun e h => by
    obtain rfl := Option.some.inj h
    exact Nat.le_add_right f frames, by simp [pause], by simp [pause]⟩

theorem causal_firstTime (holds : Nat → Bool) : Causal (firstTime holds) := fun f =>
  ⟨fun e h => (firstTime_eq_some_iff.1 h).1, by simp [firstTime], by simp [firstTime]⟩

theorem causal_say (label : String) (value : Nat → Value) : Causal (say label value) := fun f =>
  ⟨fun e h => Nat.le_of_eq (Option.some.inj h), by simp [say], by
    intro s hs e he
    obtain rfl := List.mem_singleton.1 hs
    exact Nat.le_of_eq (Option.some.inj he)⟩

theorem Causal.seq (hs : s.Causal) (ht : t.Causal) : (s.seq t).Causal := by
  intro f
  cases hend : (s f).ends with
  | none =>
    rw [seq_of_none hend]
    exact hs f
  | some e =>
    rw [seq_of_some hend]
    have hfe := (hs f).ends e hend
    refine ⟨fun e' he' => Nat.le_trans hfe ((ht e).ends e' he'), fun x hx => ?_, fun x hx e' he' => ?_⟩
    · rcases List.mem_append.1 hx with hx | hx
      · exact (hs f).sayings x hx
      · exact Nat.le_trans hfe ((ht e).sayings x hx)
    · rcases List.mem_append.1 hx with hx | hx
      · exact Nat.le_trans ((hs f).silent x hx e hend) ((ht e).ends e' he')
      · exact (ht e).silent x hx e' he'

theorem Causal.beside (hs : s.Causal) (ht : t.Causal) : (s.beside t).Causal := by
  intro f
  refine ⟨fun e he => ?_, fun x hx => ?_, fun x hx e he => ?_⟩
  · obtain ⟨a, b, ha, -, rfl⟩ := latest_eq_some_iff.1 he
    exact Nat.le_trans ((hs f).ends a ha) (Nat.le_max_left a b)
  · rcases List.mem_append.1 hx with hx | hx
    · exact (hs f).sayings x hx
    · exact (ht f).sayings x hx
  · obtain ⟨a, b, ha, hb, rfl⟩ := latest_eq_some_iff.1 he
    rcases List.mem_append.1 hx with hx | hx
    · exact Nat.le_trans ((hs f).silent x hx a ha) (Nat.le_max_left a b)
    · exact Nat.le_trans ((ht f).silent x hx b hb) (Nat.le_max_right a b)

/-! ### The rest of a course -/

variable {g : Nat}

/-- Nothing is left of what a course says that ends in its first frame. -/
theorem after_of_ends (hs : s.Causal) (hend : (s g).ends = some g) :
    ((s g).sayings.filter fun x => x.frame ≠ g) = [] :=
  List.filter_eq_nil_iff.2 fun x hx => by
    have := (hs g).sayings x hx
    have := (hs g).silent x hx g hend
    simp only [decide_eq_true_eq]
    omega

/-- A course that starts later says nothing before. -/
theorem sayings_of_lt (ht : t.Causal) {e : Nat} (hlt : g < e) :
    ((t e).sayings.filter fun x => x.frame ≠ g) = (t e).sayings ∧ ((t e).sayings.filter fun x => x.frame = g) = [] := by
  have hframe : ∀ x ∈ (t e).sayings, x.frame ≠ g := fun x hx => by
    have := (ht e).sayings x hx
    omega
  exact ⟨List.filter_eq_self.2 fun x hx => by simp [hframe x hx],
    List.filter_eq_nil_iff.2 fun x hx => by simp [hframe x hx]⟩

theorem seq_of_ended (hs : s.Causal) (h : (s g).ends = some g) :
    (s.seq t g).ends = (t g).ends ∧ (s.seq t g).now g = (s g).now g ++ (t g).now g ∧
      (s.seq t g).after g = (t g).after g := by
  rw [seq_of_some h]
  refine ⟨rfl, List.filter_append _ _, ?_⟩
  simp only [Course.after, List.filter_append, after_of_ends hs h, List.nil_append]

theorem seq_of_going (hs : s.Causal) (ht : t.Causal) (h : (s g).ends ≠ some g) {rest : Timeline}
    (hrest : rest (g + 1) = (s g).after g) :
    (s.seq t g).ends ≠ some g ∧ (s.seq t g).now g = (s g).now g ∧
      rest.seq t (g + 1) = (s.seq t g).after g := by
  have hends : (rest (g + 1)).ends = (s g).ends := by rw [hrest]; rfl
  cases hend : (s g).ends with
  | none =>
    rw [seq_of_none hend, seq_of_none (hends.trans hend)]
    exact ⟨h, rfl, hrest⟩
  | some e =>
    have hlt : g < e := Nat.lt_of_le_of_ne ((hs g).ends e hend) fun he => h (he ▸ hend)
    obtain ⟨hafter, hnow⟩ := sayings_of_lt ht hlt
    rw [seq_of_some hend, seq_of_some (hends.trans hend), hrest]
    refine ⟨fun he => ?_, ?_, ?_⟩
    · have := (ht e).ends g he
      omega
    · simp only [Course.now, List.filter_append, hnow, List.append_nil]
    · simp only [Course.after, List.filter_append, hafter]

theorem now_beside : (s.beside t g).now g = (s g).now g ++ (t g).now g :=
  List.filter_append _ _

theorem latest_of_le {b : Option Nat} (h : ∀ e, b = some e → g ≤ e) : latest (some g) b = b := by
  cases b with
  | none => rfl
  | some e => simp [latest, h e rfl]

theorem beside_of_ended (hs : s.Causal) (ht : t.Causal) (h : (s g).ends = some g) :
    (s.beside t g).ends = (t g).ends ∧ (s.beside t g).after g = (t g).after g := by
  have hends : (s.beside t g).ends = (t g).ends := by
    rw [beside, h]
    exact latest_of_le (ht g).ends
  refine ⟨hends, ?_⟩
  rw [Course.after, hends]
  simp only [beside, Course.after, List.filter_append, after_of_ends hs h, List.nil_append]

theorem beside_ends_ne (hs : s.Causal) (h : (s g).ends ≠ some g) :
    (s.beside t g).ends ≠ some g := by
  intro hend
  obtain ⟨a, b, ha, hb, hmax⟩ := latest_eq_some_iff.1 hend
  have := (hs g).ends a ha
  have : a ≠ g := fun he => h (he ▸ ha)
  omega

/-- Side by side, where the first goes on. The others go on as well, or they are over. -/
theorem beside_of_going (hs : s.Causal) (ht : t.Causal) (h : (s g).ends ≠ some g) {rest others : Timeline}
    (hrest : rest (g + 1) = (s g).after g)
    (hothers : others (g + 1) = (t g).after g ∨ ((t g).ends = some g ∧ others = immediate)) :
    rest.beside others (g + 1) = (s.beside t g).after g := by
  rcases hothers with hothers | ⟨hend, rfl⟩
  · simp only [beside, hrest, hothers, Course.after, List.filter_append]
  · have hlatest : latest (s g).ends (some (g + 1)) = latest (s g).ends (some g) := by
      cases hs' : (s g).ends with
      | none => rfl
      | some e =>
        have := (hs g).ends e hs'
        have : e ≠ g := fun he => h (he ▸ hs')
        simp only [latest, Option.some.injEq]
        omega
    simp only [beside, hrest, immediate, Course.after, List.filter_append, after_of_ends ht hend, hend, hlatest]

theorem pause_of_going (left : Nat) :
    (pause (left + 1) g).ends ≠ some g ∧ pause left (g + 1) = (pause (left + 1) g).after g := by
  refine ⟨fun h => ?_, ?_⟩
  · have := Option.some.inj h
    omega
  · simp only [pause, Course.after, List.filter_nil]
    congr 2
    omega

theorem firstTime_of_going {holds : Nat → Bool} (h : holds g = false) :
    (firstTime holds g).ends ≠ some g ∧ firstTime holds (g + 1) = (firstTime holds g).after g := by
  have hends : (firstTime holds (g + 1)).ends = (firstTime holds g).ends := by
    refine Option.ext fun e => ?_
    rw [firstTime_eq_some_iff, firstTime_eq_some_iff]
    constructor
    · rintro ⟨hge, he, hmin⟩
      refine ⟨by omega, he, fun k hgk hke => ?_⟩
      rcases Nat.lt_or_ge g k with hlt | hle
      · exact hmin k hlt hke
      · rw [Nat.le_antisymm hle hgk, h]
        decide
    · rintro ⟨hge, he, hmin⟩
      refine ⟨?_, he, fun k hgk hke => hmin k (by omega) hke⟩
      rcases Nat.lt_or_eq_of_le hge with hlt | rfl
      · exact hlt
      · rw [h] at he
        cases he
  refine ⟨fun hend => ?_, ?_⟩
  · rw [firstTime_eq_some_iff, h] at hend
    exact absurd hend.2.1 (by decide)
  · rw [Course.after, ← hends]
    rfl

end Timeline

/-! ### Trees -/

/-- How many frames a duration takes does not depend on the frame. -/
theorem FrameClock.framesFor_congr {c d : FrameClock} (h : c.frameTime = d.frameTime) (seconds : Float) :
    c.framesFor seconds = d.framesFor seconds := by
  unfold FrameClock.framesFor
  rw [h]

/-- What the expressions of a tree come to, frame by frame. -/
structure Forecast where
  frameTime : Float
  value : Callable → Nat → Value

namespace Forecast

variable (F : Forecast)

/-- How many frames a duration takes. -/
def framesOf (seconds : Float) : Nat := (⟨F.frameTime, 0⟩ : FrameClock).framesFor seconds

/-- The number that an expression comes to in some frame. -/
def numberAt (c : Callable) (frame : Nat) : Float := (F.value c frame).asFloat?.getD 0.0

/-- Whether a condition holds in some frame. -/
def holdsAt (c : Callable) (frame : Nat) : Bool := (F.value c frame).asBool?.getD false

end Forecast

open Timeline

/-- The course of a leaf. One that cuts the running phase is over at once, but does more than its course tells. -/
noncomputable def Leaf.timeline (F : Forecast) : Leaf Callable → Timeline
  | .wait seconds => fun f => pause (F.framesOf (F.numberAt seconds f)) f
  | .waitUntil condition => firstTime (F.holdsAt condition)
  | .emit label value => say label (F.value value)
  | .shiftPhase => immediate

mutual

/-- The course of a tree. What the children of an action say that does not wait for them is said by other
tasks. Patterns and phases have no course of this kind. -/
noncomputable def Node.timeline (F : Forecast) : Node Callable → Timeline
  | .pattern _ _ => never
  | .phase _ => never
  | .action wait blocking children =>
    (pause (F.framesOf wait)).seq (if blocking then Node.timelineTogether F children else immediate)
  | .sequence wait children => (pause (F.framesOf wait)).seq (Node.timelineInTurn F children)
  | .endBlock wait blocking children =>
    (pause (F.framesOf wait)).seq (if blocking then Node.timelineTogether F children else immediate)
  | .finish child => child.timeline F
  | .leaf act => act.timeline F

/-- The course of some trees one after another. -/
noncomputable def Node.timelineInTurn (F : Forecast) : List (Node Callable) → Timeline
  | [] => immediate
  | node :: rest => (node.timeline F).seq (Node.timelineInTurn F rest)

/-- The course of some trees side by side. -/
noncomputable def Node.timelineTogether (F : Forecast) : List (Node Callable) → Timeline
  | [] => immediate
  | node :: rest => (node.timeline F).beside (Node.timelineTogether F rest)

end

/-- The course of the wait that an activity is in. -/
noncomputable def Wait.timeline (F : Forecast) : Wait Callable → Timeline
  | .frames left _ => pause left
  | .until condition _ => firstTime (F.holdsAt condition)
  | .cancelled _ => never

/-- The course of what follows a part that is over. -/
noncomputable def Continuation.timeline (F : Forecast) : Continuation → Timeline
  | .sequence rest _ => Node.timelineInTurn F rest
  | .spread blocking children _ => if blocking then Node.timelineTogether F children else immediate
  | .hold stays _ => if stays then never else immediate
  | _ => immediate

mutual

/-- The course of a tree on its way, for the frame of its next turn. -/
noncomputable def Activity.timeline (F : Forecast) : Activity → Timeline
  | .start node _ => node.timeline F
  | .wait pause => pause.timeline F
  | .andThen first next => (first.timeline F).seq (next.timeline F)
  | .join parts => Activity.timelineTogether F parts
  | .stuck => never

/-- The course of parts that go on side by side. -/
noncomputable def Activity.timelineTogether (F : Forecast) : List Activity → Timeline
  | [] => immediate
  | part :: rest => (part.timeline F).beside (Activity.timelineTogether F rest)

end

/-! ### Courses start when they do -/

variable (F : Forecast)

theorem Leaf.causal_timeline (leaf : Leaf Callable) : (leaf.timeline F).Causal := by
  cases leaf with
  | wait seconds => exact fun f => causal_pause _ f
  | waitUntil condition => exact causal_firstTime _
  | emit label value => exact causal_say _ _
  | shiftPhase => exact causal_immediate

mutual

theorem Node.causal_timeline : (node : Node Callable) → (node.timeline F).Causal
  | .pattern _ _ => by rw [Node.timeline]; exact causal_never
  | .phase _ => by rw [Node.timeline]; exact causal_never
  | .action wait blocking children => by
    rw [Node.timeline]
    refine (causal_pause _).seq ?_
    split
    · exact Node.causal_timelineTogether children
    · exact causal_immediate
  | .sequence wait children => by
    rw [Node.timeline]
    exact (causal_pause _).seq (Node.causal_timelineInTurn children)
  | .endBlock wait blocking children => by
    rw [Node.timeline]
    refine (causal_pause _).seq ?_
    split
    · exact Node.causal_timelineTogether children
    · exact causal_immediate
  | .finish child => by
    rw [Node.timeline]
    exact Node.causal_timeline child
  | .leaf act => by
    rw [Node.timeline]
    exact act.causal_timeline F

theorem Node.causal_timelineInTurn : (children : List (Node Callable)) →
    (Node.timelineInTurn F children).Causal
  | [] => by rw [Node.timelineInTurn]; exact causal_immediate
  | node :: rest => by
    rw [Node.timelineInTurn]
    exact (Node.causal_timeline node).seq (Node.causal_timelineInTurn rest)

theorem Node.causal_timelineTogether : (children : List (Node Callable)) →
    (Node.timelineTogether F children).Causal
  | [] => by rw [Node.timelineTogether]; exact causal_immediate
  | node :: rest => by
    rw [Node.timelineTogether]
    exact (Node.causal_timeline node).beside (Node.causal_timelineTogether rest)

end

theorem Continuation.causal_timeline (next : Continuation) : (next.timeline F).Causal := by
  cases next with
  | sequence rest token => exact Node.causal_timelineInTurn F rest
  | spread blocking children token =>
    cases blocking with
    | true => exact Node.causal_timelineTogether F children
    | false => exact causal_immediate
  | hold stays token =>
    cases stays with
    | true => exact causal_never
    | false => exact causal_immediate
  | _ => exact causal_immediate

mutual

theorem Activity.causal_timeline : (a : Activity) → (a.timeline F).Causal
  | .start node _ => by
    rw [Activity.timeline]
    exact node.causal_timeline F
  | .wait pause => by
    rw [Activity.timeline]
    cases pause with
    | frames left token => exact causal_pause left
    | «until» condition token => exact causal_firstTime _
    | cancelled token => exact causal_never
  | .andThen first next => by
    rw [Activity.timeline]
    exact (Activity.causal_timeline first).seq (next.causal_timeline F)
  | .join parts => by
    rw [Activity.timeline]
    exact Activity.causal_timelineTogether parts
  | .stuck => by rw [Activity.timeline]; exact causal_never

theorem Activity.causal_timelineTogether : (parts : List Activity) →
    (Activity.timelineTogether F parts).Causal
  | [] => by rw [Activity.timelineTogether]; exact causal_immediate
  | part :: rest => by
    rw [Activity.timelineTogether]
    exact (Activity.causal_timeline part).beside (Activity.causal_timelineTogether rest)

end

end Barrage
