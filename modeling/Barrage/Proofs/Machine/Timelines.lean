import Barrage.Proofs.Machine.Containment
import Barrage.Proofs.Machine.PlainTurns

/-!
# Timelines of plain trees

A task that runs a plain tree takes one turn in every frame, at its place among the other tasks, whatever these
are and whatever others do between the frames. If its token stays live and its expressions come to what a
forecast says, the whole of these turns is the course of the tree: it is over in the frame in which the course
ends, and in each frame until then it emits what the course says in that frame, in the order of the tree.

## Main results

* `Machine.follow_plain`: the turns of the task, one by one
* `plain_tree_follows_timeline`: the run of the task is the course of its tree
-/

namespace Barrage

/-- The course from some frame on. -/
def Course.from (c : Course) (g : Nat) : Course := { c with sayings := c.sayings.filter fun s => g ≤ s.frame }

theorem Course.from_start {c : Course} {f : Nat} (h : c.From f) : c.from f = c := by
  have hsayings : (c.sayings.filter fun s => f ≤ s.frame) = c.sayings :=
    List.filter_eq_self.2 fun s hs => by simpa using h.sayings s hs
  rw [Course.from, hsayings]

/-- What comes after a frame in the course from that frame on. -/
theorem Course.after_from (c : Course) (g : Nat) : (c.from g).after g = c.from (g + 1) := by
  simp only [Course.after, Course.from, List.filter_filter]
  congr 1
  refine List.filter_congr fun s _ => ?_
  rw [Bool.eq_iff_iff]
  simp only [Bool.and_eq_true, decide_eq_true_eq]
  omega

theorem Course.now_from (c : Course) (g : Nat) : (c.from g).now g = c.now g := by
  simp only [Course.now, Course.from, List.filter_filter]
  refine List.filter_congr fun s _ => ?_
  rw [Bool.eq_iff_iff]
  simp only [Bool.and_eq_true, decide_eq_true_eq]
  omega

section

variable {E : Callable → Prop} {F : Forecast} {T : CancelToken} {a task : Activity} {p : Machine} {g : Nat}

/-- The turn of a task that carries a plain tree. -/
theorem Activity.Plain.carried (ha : a.Plain E F T) (htask : task.Carries a) (hp : p.Goes E F T)
    (hg : p.clock.frame = g) :
    ((task.step p).2.shared.executor.events.events =
      p.shared.executor.events.events ++ ((a.timeline F g).now g).map Saying.event) ∧
    (((a.timeline F g).ends = some g → (task.step p).1 = .done (.ok ())) ∧
      ((a.timeline F g).ends ≠ some g → ∃ rest left, (task.step p).1 = .waiting rest ∧ rest.Carries left ∧
        left.Plain E F T ∧ left.timeline F (g + 1) = (a.timeline F g).after g)) := by
  obtain ⟨hdoes, hleads⟩ := a.realizes_turn ha g p hp hg
  obtain ⟨⟨outcome, hrun⟩, hdone, hwaits⟩ := htask.step p
  refine ⟨by rw [hrun, hdoes.executor], ?_⟩
  cases hturn : (a.step p).1 with
  | done answer =>
    rw [hturn] at hleads
    exact ⟨fun _ => by rw [hdone answer hturn, hleads.1], fun hend => absurd hleads.2 hend⟩
  | waiting left =>
    rw [hturn] at hleads
    obtain ⟨rest, hrest, hcarries⟩ := hwaits left hturn
    exact ⟨fun hend => absurd hend hleads.2.1, fun _ => ⟨rest, left, hrest, hcarries, hleads.1, hleads.2.2⟩⟩

end

namespace Machine

variable {E : Callable → Prop} {F : Forecast} {T : CancelToken} {acts : Nat → List Outside} {dt : Float}
  {m : Machine} {start : Nat}

/-- A task that carries a plain tree, in a frame that its course reaches. -/
theorem follow_plain {a : Activity} {first : Poll} (hfirst : follow acts dt m start 0 = some first)
    (htask : first.task.Carries a) (ha : a.Plain E F T)
    (hgoes : ∀ n poll, follow acts dt m start n = some poll → Machine.Goes E F T poll.before) (n : Nat)
    (hgoing : ∀ k < n, (a.timeline F m.clock.frame).ends ≠ some (m.clock.frame + k)) :
    ∃ poll left, follow acts dt m start n = some poll ∧ poll.task.Carries left ∧ left.Plain E F T ∧
      left.timeline F (m.clock.frame + n) = (a.timeline F m.clock.frame).from (m.clock.frame + n) := by
  induction n with
  | zero =>
    refine ⟨first, a, hfirst, htask, ha, ?_⟩
    exact (Course.from_start (a.causal_timeline F m.clock.frame)).symm
  | succ n ih =>
    obtain ⟨poll, left, hpoll, hcarries, hplain, hcourse⟩ := ih fun k hk => hgoing k (Nat.lt_succ_of_lt hk)
    have hclock : poll.before.clock.frame = m.clock.frame + n := by rw [follow_clock hpoll]
    obtain ⟨-, -, hwaits⟩ := hplain.carried hcarries (hgoes n poll hpoll) hclock
    rw [hcourse] at hwaits
    obtain ⟨rest, left', hstep, hcarries', hplain', hafter⟩ := hwaits (hgoing n (Nat.lt_succ_self n))
    obtain ⟨next, hnext, hrest⟩ := follow_succ hpoll (by rw [Poll.kept_eq, hstep]; rfl)
    refine ⟨next, left', hnext, hrest ▸ hcarries', hplain', ?_⟩
    rw [← Nat.add_assoc, hafter, Course.after_from]

end Machine

open Machine in
/-- A task that runs a plain tree under a token that stays live, with expressions that come to what a forecast
says, runs the course of the tree. It takes a turn in every frame up to the end of the course, and none later; it
is over in the frame of the end, and not before; and in each of its turns it emits what the course says in that
frame. All that the course says falls into these frames. -/
theorem plain_tree_follows_timeline {E : Callable → Prop} {F : Forecast} {T : CancelToken}
    {acts : Nat → List Outside} {dt : Float} {m : Machine} {start : Nat} {node : Node Callable} {first : Machine.Poll}
    (hnode : node.Plain E F) (hfirst : follow acts dt m start 0 = some first) (htask : node.IsTask T first.task)
    (hgoes : ∀ n poll, follow acts dt m start n = some poll → Machine.Goes E F T poll.before) :
    let f := m.clock.frame
    let course := node.timeline F f
    (∀ n, (follow acts dt m start n).isSome ↔ ∀ e, course.ends = some e → f + n ≤ e) ∧
    (∀ n poll, follow acts dt m start n = some poll →
      (course.ends = some (f + n) → (poll.task.step poll.before).1 = .done (.ok ())) ∧
      (course.ends ≠ some (f + n) → ∃ rest, (poll.task.step poll.before).1 = .waiting rest) ∧
      (poll.task.step poll.before).2.shared.executor.events.events =
        poll.before.shared.executor.events.events ++ (course.now (f + n)).map Saying.event) ∧
    (∀ s ∈ course.sayings, f ≤ s.frame ∧ ∀ e, course.ends = some e → s.frame ≤ e) := by
  intro f course
  have hcarries : first.task.Carries (.start node T) := htask
  have htimeline : (Activity.start node T).timeline F = node.timeline F := by rw [Activity.timeline]
  have hcausal : course.From f := node.causal_timeline F f
  have hreach := fun n hn => follow_plain (a := .start node T) hfirst hcarries (.start hnode) hgoes n
    (by rw [htimeline]; exact hn)
  rw [htimeline] at hreach
  -- After its end the task takes no turn.
  have hover : ∀ e, course.ends = some e → ∀ n, e < f + n → follow acts dt m start n = none := by
    intro e hend n hn
    have hfe := hcausal.ends e hend
    obtain ⟨k, rfl⟩ := Nat.exists_eq_add_of_le hfe
    obtain ⟨poll, left, hpoll, hleft, hplain, hcourse⟩ := hreach k fun j hj hne => by
      have := Option.some.inj (hend.symm.trans hne)
      omega
    have hclock : poll.before.clock.frame = f + k := by rw [follow_clock hpoll]
    obtain ⟨-, hdone, -⟩ := hplain.carried hleft (hgoes k poll hpoll) hclock
    rw [hcourse] at hdone
    have hnone : follow acts dt m start (k + 1) = none := by
      refine follow_succ_of_finished hpoll ?_
      rw [Poll.kept_eq, hdone hend]
      rfl
    exact follow_none_of_le hnone (by omega)
  refine ⟨fun n => ⟨fun hsome e hend => ?_, fun hn => ?_⟩, fun n poll hpoll => ?_, fun s hs => ?_⟩
  · by_contra hlt
    rw [hover e hend n (by omega)] at hsome
    cases hsome
  · obtain ⟨poll, -, hpoll, -⟩ := hreach n fun k hk hend => by
      have := hn _ hend
      omega
    rw [hpoll]
    rfl
  · obtain ⟨poll', left, hpoll', hleft, hplain, hcourse⟩ := hreach n fun k hk hend => by
      have := hover _ hend n (by omega)
      rw [hpoll] at this
      cases this
    obtain rfl : poll = poll' := Option.some.inj (hpoll.symm.trans hpoll')
    have hclock : poll.before.clock.frame = f + n := by rw [follow_clock hpoll]
    obtain ⟨hevents, hdone, hwaits⟩ := hplain.carried hleft (hgoes n poll hpoll) hclock
    rw [hcourse] at hevents hdone hwaits
    rw [Course.now_from] at hevents
    refine ⟨hdone, fun hend => ?_, hevents⟩
    obtain ⟨rest, -, hrest, -⟩ := hwaits hend
    exact ⟨rest, hrest⟩
  · exact ⟨hcausal.sayings s hs, hcausal.silent s hs⟩

/-! ### A tree of constants -/

/-- An expression of a leaf that always comes to one value. -/
def constantly (value : Value) : Callable := ⟨⟨[.float, .float], value.type⟩, [], .code (.const value)⟩

/-- The value of an expression that is a constant. -/
def constantOf (c : Callable) : Value :=
  match c.body with
  | .code (.const value) => value
  | _ => .float 0.0

/-- What constants come to is no question of time. -/
def constantForecast : Forecast := ⟨0.1, fun c _ => constantOf c⟩

theorem goes_of_constant {p : Machine} (hclock : p.clock.frameTime = 0.1) :
    p.Goes (fun c => ∃ value, c = constantly value) constantForecast .none := by
  refine ⟨by simp [CancelToken.isCancelled, CancelToken.none], hclock, fun hosts _ c hc => ?_⟩
  obtain ⟨value, rfl⟩ := hc
  cases value <;> rfl

/-- A tree that waits for a frame and then says something. -/
def waitThenEmit : Node Callable :=
  .sequence 0.0 [.leaf (.wait (constantly (.float 0.1))), .leaf (.emit "a" (constantly (.float 1.0)))]

/-- A run that is about a tree. -/
def soleTree (node : Node Callable) : Machine :=
  (soleSource .live).spawn (Machine.rootTask node .none)

/-- The tree is over in the second frame, in which it says what it has to say. -/
theorem waitThenEmit_follows_timeline :
    ∃ poll, Machine.follow (fun _ => []) 0.1 (soleTree waitThenEmit) 0 1 = some poll ∧
      (poll.task.step poll.before).1 = .done (.ok ()) ∧
      (poll.task.step poll.before).2.shared.executor.events.events =
        poll.before.shared.executor.events.events ++ [.emitted "a" (.float 1.0)] := by
  have hplain : waitThenEmit.Plain (fun c => ∃ value, c = constantly value) constantForecast := by
    refine .sequence fun child hchild => ?_
    rcases List.mem_cons.1 hchild with rfl | hchild
    · exact .leaf ⟨⟨_, rfl⟩, fun _ => ⟨0.1, rfl⟩⟩
    · rw [List.mem_singleton.1 hchild]
      exact .leaf ⟨_, rfl⟩
  have hnone : constantForecast.framesOf 0.0 = 0 := by decide +kernel
  have hone : constantForecast.framesOf 0.1 = 1 := by decide +kernel
  have hcourse : waitThenEmit.timeline constantForecast 0 = ⟨some 1, [⟨1, "a", .float 1.0⟩]⟩ := by
    have hnumber : constantForecast.numberAt (constantly (.float 0.1)) 0 = 0.1 := rfl
    simp [waitThenEmit, Node.timeline, Node.timelineInTurn, Leaf.timeline, Timeline.seq, Timeline.pause,
      Timeline.say, Timeline.immediate, hnone, hnumber, hone]
    rfl
  have hgoes : ∀ n poll, Machine.follow (fun _ => []) 0.1 (soleTree waitThenEmit) 0 n = some poll →
      Machine.Goes (fun c => ∃ value, c = constantly value) constantForecast .none poll.before :=
    fun n poll hpoll => goes_of_constant (by rw [Machine.follow_clock hpoll]; rfl)
  obtain ⟨hturns, hdoes, -⟩ := plain_tree_follows_timeline hplain rfl (.inr rfl) hgoes
  have hframe : (soleTree waitThenEmit).clock.frame = 0 := rfl
  rw [hframe, hcourse] at hturns hdoes
  obtain ⟨poll, hpoll⟩ := Option.isSome_iff_exists.1 ((hturns 1).2 fun e he => by
    have := Option.some.inj he
    omega)
  obtain ⟨hdone, -, hevents⟩ := hdoes 1 poll hpoll
  exact ⟨poll, hpoll, hdone rfl, hevents⟩

end Barrage
