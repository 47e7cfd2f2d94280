import Barrage.Proofs.Machine.Timelines
import Mathlib.Data.List.Forall2

/-!
# Joins

A blocking action waits for all of its children. Up to a limit they are looked at in every frame, and the
action is over with the last of them. If there are more, each is looked at once, in the frame in which they
start, and nothing ever looks at them again: the action is over if all of them are over in that frame, and
otherwise it hangs for ever, although each of its children alone would come to an end.

Children may be trees of any kind here. That none of them depends on the others is said through the runs that
their turns may find: a child ends in some frame whichever of these runs its turns find, and its turns lead
from such runs to such runs.

## Main definitions

* `EndsAfter`, `FinishesAt`: when a computation is over, whatever runs its turns find
* `Stays`: a computation that is never over

## Main results

* `blocking_action_finishes`: a blocking action is over with the last of its children, or never
* `crowded_action_hangs`: a blocking action of 31 children that never ends
-/

namespace Barrage

/-! ### When a computation is over -/

/-- A computation that starts in a frame is over so many frames later, if its turns find certain runs in each
frame. What is left of it for a frame has some property. -/
def EndsAfter (Ω : Nat → Machine → Prop) (J : Nat → Activity → Prop) :
    Nat → Step (World.M Activity) → Nat → Prop
  | 0, y, g => ∀ p, Ω g p → (y.run p).1 = .done (.ok ()) ∧ Ω g (y.run p).2
  | k + 1, y, g => ∀ p, Ω g p → ∃ rest : Activity, (y.run p).1 = .waiting rest ∧ Ω g (y.run p).2 ∧
    J (g + 1) rest ∧ EndsAfter Ω J k rest.turn (g + 1)

/-- A computation that starts in a frame is not over for so many frames. -/
def StaysFor (Ω : Nat → Machine → Prop) : Nat → Step (World.M Activity) → Nat → Prop
  | 0, _, _ => True
  | k + 1, y, g => ∀ p, Ω g p →
    ∃ rest : Activity, (y.run p).1 = .waiting rest ∧ Ω g (y.run p).2 ∧ StaysFor Ω k rest.turn (g + 1)

/-- A computation that starts in a frame is over in another. -/
def FinishesAt (Ω : Nat → Machine → Prop) (y : Step (World.M Activity)) (g e : Nat) : Prop :=
  ∃ k, e = g + k ∧ EndsAfter Ω (fun _ _ => True) k y g

/-- A computation that is never over. -/
def Stays (Ω : Nat → Machine → Prop) (y : Step (World.M Activity)) (g : Nat) : Prop := ∀ k, StaysFor Ω k y g

section

variable {Ω : Nat → Machine → Prop} {J : Nat → Activity → Prop} {y z : Step (World.M Activity)}
  {T : CancelToken} {g k j : Nat}

theorem EndsAfter.congr (hrun : ∀ p, Ω g p → y.run p = z.run p) (hz : EndsAfter Ω J k z g) :
    EndsAfter Ω J k y g := by
  cases k with
  | zero => exact fun p hp => hrun p hp ▸ hz p hp
  | succ k => exact fun p hp => hrun p hp ▸ hz p hp

theorem EndsAfter.mono {K : Nat → Activity → Prop} (h : EndsAfter Ω J k y g) (himp : ∀ g a, J g a → K g a) :
    EndsAfter Ω K k y g := by
  induction k generalizing y g with
  | zero => exact h
  | succ k ih =>
    intro p hp
    obtain ⟨rest, hrest, hΩ, hJ, hends⟩ := h p hp
    exact ⟨rest, hrest, hΩ, himp _ _ hJ, ih hends⟩

/-- A part that is over at some point, and what follows it then. -/
theorem EndsAfter.followedBy {next : Continuation} {go : AnswerStep (World.M Activity)}
    (hy : EndsAfter Ω (fun g a => J g (.andThen a next)) k y g) (hsame : go (.ok ()) = next.apply (.ok ()))
    (hnext : EndsAfter Ω J j (next.apply (.ok ())) (g + k)) :
    EndsAfter Ω J (k + j) (do (← y).followedBy next go) g := by
  induction k generalizing y g go with
  | zero =>
    rw [Nat.zero_add]
    -- The part is over at once, and what follows finds the run that it leaves.
    have hrun : ∀ p, Ω g p → (do (← y).followedBy next go : Step (World.M Activity)).run p =
        (next.apply (.ok ()) : Step (World.M Activity)).run (y.run p).2 := fun p hp => by
      change ((y.run p).1.followedBy next go).run (y.run p).2 = _
      rw [(hy p hp).1, ← hsame]
      rfl
    cases j with
    | zero => exact fun p hp => hrun p hp ▸ hnext _ (hy p hp).2
    | succ j => exact fun p hp => hrun p hp ▸ hnext _ (hy p hp).2
  | succ k ih =>
    rw [Nat.succ_add]
    intro p hp
    obtain ⟨rest, hrest, hΩ, hJ, hends⟩ := hy p hp
    have hrun : (do (← y).followedBy next go : Step (World.M Activity)).run p =
        (.waiting (.andThen rest next), (y.run p).2) := by
      change ((y.run p).1.followedBy next go).run (y.run p).2 = _
      rw [hrest]
      rfl
    rw [hrun]
    refine ⟨_, rfl, hΩ, hJ, ?_⟩
    rw [Activity.turn]
    refine ih hends rfl ?_
    rwa [Nat.add_assoc, Nat.add_comm 1 k]

/-- A part that is over at some point, and what follows it then and is never over. -/
theorem EndsAfter.followedBy_stays {next : Continuation} {go : AnswerStep (World.M Activity)}
    (hy : EndsAfter Ω J k y g) (hsame : go (.ok ()) = next.apply (.ok ()))
    (hnext : Stays Ω (next.apply (.ok ())) (g + k)) : Stays Ω (do (← y).followedBy next go) g := by
  induction k generalizing y g go with
  | zero =>
    intro j
    cases j with
    | zero => trivial
    | succ j =>
      intro p hp
      have hrun : (do (← y).followedBy next go : Step (World.M Activity)).run p =
          (next.apply (.ok ()) : Step (World.M Activity)).run (y.run p).2 := by
        change ((y.run p).1.followedBy next go).run (y.run p).2 = _
        rw [(hy p hp).1, ← hsame]
        rfl
      rw [hrun]
      exact hnext (j + 1) _ (hy p hp).2
  | succ k ih =>
    intro j
    cases j with
    | zero => trivial
    | succ j =>
      intro p hp
      obtain ⟨rest, hrest, hΩ, -, hends⟩ := hy p hp
      have hrun : (do (← y).followedBy next go : Step (World.M Activity)).run p =
          (.waiting (.andThen rest next), (y.run p).2) := by
        change ((y.run p).1.followedBy next go).run (y.run p).2 = _
        rw [hrest]
        rfl
      rw [hrun]
      refine ⟨_, rfl, hΩ, ?_⟩
      rw [Activity.turn]
      refine ih hends rfl ?_ j
      rwa [Nat.add_assoc, Nat.add_comm 1 k]

theorem stays_stuck : Stays Ω (Activity.stuck.turn) g := by
  intro k
  induction k generalizing g with
  | zero => trivial
  | succ k ih => exact fun p hp => ⟨.stuck, rfl, hp, ih⟩

/-- Waiting for some frames under a token that is live. -/
theorem endsAfter_frames (hlive : ∀ g p, Ω g p → ¬ T.isCancelled p.sources) (k : Nat)
    (hJ : ∀ g' left, g' ≤ g + k → J g' (.wait (.frames left T))) :
    EndsAfter Ω J k (Wait.frames k T).step g := by
  induction k generalizing g with
  | zero =>
    intro p hp
    rw [run_frames, if_neg (hlive g p hp)]
    exact ⟨rfl, hp⟩
  | succ k ih =>
    intro p hp
    rw [run_frames, if_neg (hlive g p hp)]
    refine ⟨_, rfl, hp, hJ _ _ (by omega), ?_⟩
    rw [Activity.turn]
    exact ih fun g' left hle => hJ g' left (by omega)

/-- Waiting for the delay of an action. -/
theorem endsAfter_delayed {seconds : Float} (hlive : ∀ g p, Ω g p → ¬ T.isCancelled p.sources)
    (hframes : ∀ g p, Ω g p → p.clock.framesFor seconds = k)
    (hJ : ∀ g' left, g' ≤ g + k → J g' (.wait (.frames left T))) :
    EndsAfter Ω J k (delayed seconds T) g := by
  refine EndsAfter.congr (fun p hp => ?_) (endsAfter_frames hlive k hJ)
  have hlook : (Scheduler.framesFor seconds : World.M Activity Nat).run p = (k, p) :=
    congrArg (·, p) (hframes g p hp)
  exact run_look hlook

/-! ### Parts side by side -/

/-- How much longer the others go on, a frame later. -/
def laterEnds (ks : List Nat) : List Nat := ks.filterMap fun k => if k = 0 then none else some (k - 1)

/-- In a frame, parts take their turns, and those that are not over go on. -/
def PartsEnd (Ω : Nat → Machine → Prop) (ks : List Nat)
    (y : World.M Activity (Except MachineError (List Activity))) (g : Nat) : Prop :=
  ∀ p, Ω g p → ∃ parts, (y.run p).1 = .ok parts ∧ Ω g (y.run p).2 ∧
    List.Forall₂ (fun k (part : Activity) => EndsAfter Ω (fun _ _ => True) k part.turn (g + 1)) (laterEnds ks) parts

theorem partsEnd_nil : PartsEnd Ω [] (pure (.ok [])) g := fun _ hp => ⟨[], rfl, hp, .nil⟩

theorem EndsAfter.collect {ks : List Nat} {others : World.M Activity (Except MachineError (List Activity))}
    (hy : EndsAfter Ω (fun _ _ => True) k y g) (hothers : PartsEnd Ω ks others g) :
    PartsEnd Ω (k :: ks) (do (← y).collect others) g := by
  intro p hp
  change ∃ parts, (((y.run p).1.collect others).run (y.run p).2).1 = .ok parts ∧
    Ω g (((y.run p).1.collect others).run (y.run p).2).2 ∧ _
  cases k with
  | zero =>
    obtain ⟨hdone, hΩ⟩ := hy p hp
    rw [hdone]
    exact hothers _ hΩ
  | succ k =>
    obtain ⟨rest, hrest, hΩ, -, hends⟩ := hy p hp
    obtain ⟨parts, hparts, hΩ', hall⟩ := hothers _ hΩ
    have hrun : (Turn.collect (.waiting rest) others).run (y.run p).2 =
        (.ok (rest :: parts), (others.run (y.run p).2).2) := by
      change (((others.run (y.run p).2).1).map (rest :: ·), (others.run (y.run p).2).2) = _
      rw [hparts]
      rfl
    rw [hrest, hrun]
    exact ⟨_, rfl, hΩ', .cons hends hall⟩

theorem partsEnd_turnParts {ks : List Nat} {parts : List Activity}
    (h : List.Forall₂ (fun k (part : Activity) => EndsAfter Ω (fun _ _ => True) k part.turn g) ks parts) :
    PartsEnd Ω ks (Activity.turnParts parts) g := by
  induction h with
  | nil =>
    rw [Activity.turnParts]
    exact partsEnd_nil
  | cons hpart _ ih =>
    rw [Activity.turnParts]
    exact hpart.collect ih

theorem partsEnd_startParts {ks : List Nat} {children : List (Node Callable)}
    (h : List.Forall₂ (fun k (child : Node Callable) => EndsAfter Ω (fun _ _ => True) k (child.start T) g) ks children) :
    PartsEnd Ω ks (Node.startParts children T) g := by
  induction h with
  | nil =>
    rw [Node.startParts]
    exact partsEnd_nil
  | cons hchild _ ih =>
    rw [Node.startParts]
    exact hchild.collect ih

/-- The last of some ends. -/
def lastOf (ks : List Nat) : Nat := ks.foldr max 0

theorem lastOf_eq_zero_iff {ks : List Nat} : lastOf ks = 0 ↔ laterEnds ks = [] := by
  induction ks with
  | nil => simp [lastOf, laterEnds]
  | cons k ks ih =>
    cases k with
    | zero => simpa [lastOf, laterEnds] using ih
    | succ k => simp [lastOf, laterEnds]

theorem lastOf_laterEnds (ks : List Nat) : lastOf (laterEnds ks) = lastOf ks - 1 := by
  induction ks with
  | nil => rfl
  | cons k ks ih =>
    cases k with
    | zero => simpa [lastOf, laterEnds] using ih
    | succ k =>
      have : lastOf (laterEnds ((k + 1) :: ks)) = max k (lastOf (laterEnds ks)) := by
        simp [lastOf, laterEnds]
      rw [this, ih]
      have : lastOf ((k + 1) :: ks) = max (k + 1) (lastOf ks) := rfl
      omega

theorem map_laterEnds (ks : List Nat) (g : Nat) :
    (laterEnds ks).map (g + 1 + ·) = (ks.map (g + ·)).filter fun e => g + 1 ≤ e := by
  induction ks with
  | nil => rfl
  | cons k ks ih =>
    cases k with
    | zero =>
      rw [List.map_cons, List.filter_cons_of_neg (by simp), ← ih]
      rfl
    | succ k =>
      have hlater : laterEnds ((k + 1) :: ks) = k :: laterEnds ks := rfl
      rw [hlater, List.map_cons, List.map_cons, List.filter_cons_of_pos (by simp), ih]
      congr 1
      omega

/-- An activity that waits for parts, which are over in certain frames. -/
def Joins (Ω : Nat → Machine → Prop) (ends : List Nat) (g : Nat) (a : Activity) : Prop :=
  ∃ parts, a = .join parts ∧ List.Forall₂ (fun e (part : Activity) => FinishesAt Ω part.turn g e) ends parts

/-- Parts that go on side by side are over with the last of them, and until then those that are not over are
waited for. -/
theorem PartsEnd.ofParts {ks ends : List Nat} {y : World.M Activity (Except MachineError (List Activity))}
    (h : PartsEnd Ω ks y g) (hends : (ends.filter fun e => g ≤ e) = ks.map (g + ·)) :
    EndsAfter Ω (fun g a => Joins Ω (ends.filter fun e => g ≤ e) g a) (lastOf ks)
      (do return .ofParts (← y)) g := by
  generalize hlast : lastOf ks = last
  induction last generalizing ks y g with
  | zero =>
    intro p hp
    obtain ⟨parts, hparts, hΩ, hall⟩ := h p hp
    change Turn.ofParts (y.run p).1 = _ ∧ Ω g (y.run p).2
    rw [lastOf_eq_zero_iff.1 hlast] at hall
    cases hall
    rw [hparts]
    exact ⟨rfl, hΩ⟩
  | succ last ih =>
    intro p hp
    obtain ⟨parts, hparts, hΩ, hall⟩ := h p hp
    change ∃ rest : Activity, Turn.ofParts (y.run p).1 = _ ∧ Ω g (y.run p).2 ∧ _
    rw [hparts]
    have hlater : lastOf (laterEnds ks) = last := by rw [lastOf_laterEnds, hlast]; rfl
    have hsome : laterEnds ks ≠ [] := fun hnil => by
      have := lastOf_eq_zero_iff.2 hnil
      omega
    have hends' : (ends.filter fun e => g + 1 ≤ e) = (laterEnds ks).map (g + 1 + ·) := by
      rw [map_laterEnds, ← hends, List.filter_filter]
      refine List.filter_congr fun e _ => ?_
      rw [Bool.eq_iff_iff]
      simp only [Bool.and_eq_true, decide_eq_true_eq]
      omega
    generalize laterEnds ks = later at hall hlater hsome hends'
    match parts, hall with
    | [], .nil => exact absurd rfl hsome
    | part :: rest, hall =>
      refine ⟨.join (part :: rest), rfl, hΩ, ⟨_, rfl, ?_⟩, ?_⟩
      · rw [hends', List.forall₂_map_left_iff]
        exact hall.imp fun k part hk => ⟨k, rfl, hk⟩
      · rw [Activity.turn]
        exact ih (partsEnd_turnParts hall) hends' hlater

/-! ### Many at once -/

/-- Many trees side by side that are all over in the frame in which they start. -/
theorem endsAfter_startMany {ks : List Nat} {children : List (Node Callable)}
    (h : List.Forall₂ (fun k (child : Node Callable) => EndsAfter Ω (fun _ _ => True) k (child.start T) g) ks children)
    (hlast : lastOf ks = 0) : EndsAfter Ω J 0 (Node.startMany true children T) g := by
  induction h with
  | nil =>
    rw [Node.startMany]
    exact fun p hp => ⟨rfl, hp⟩
  | @cons k child ks rest hchild _ ih =>
    obtain rfl : k = 0 := Nat.le_zero.1 (hlast ▸ Nat.le_max_left k (lastOf ks))
    have hrest : lastOf ks = 0 := Nat.le_zero.1 (hlast ▸ Nat.le_max_right 0 (lastOf ks))
    rw [Node.startMany]
    intro p hp
    obtain ⟨hdone, hΩ⟩ := hchild p hp
    have hrun : ∀ next : Turn Activity → Step (World.M Activity),
        ((child.start T : Step (World.M Activity)) >>= next).run p =
          (next (.done (.ok ()))).run ((child.start T : Step (World.M Activity)).run p).2 := fun next => by
      rw [← hdone]
      rfl
    rw [hrun]
    exact ih hrest _ hΩ

/-- Many trees side by side of which some are not over in the frame in which they start: nothing looks at them
any more. -/
theorem stuck_of_startMany {ks : List Nat} {children : List (Node Callable)} {finished : Bool}
    (h : List.Forall₂ (fun k (child : Node Callable) => EndsAfter Ω (fun _ _ => True) k (child.start T) g) ks children)
    (hlast : finished → lastOf ks ≠ 0) {p : Machine} (hp : Ω g p) :
    ((Node.startMany finished children T : Step (World.M Activity)).run p).1 = .waiting .stuck ∧
      Ω g ((Node.startMany finished children T : Step (World.M Activity)).run p).2 := by
  induction h generalizing finished p with
  | nil =>
    cases finished with
    | true => exact absurd rfl (hlast rfl)
    | false =>
      rw [Node.startMany]
      exact ⟨rfl, hp⟩
  | @cons k child ks rest hchild _ ih =>
    rw [Node.startMany]
    cases k with
    | zero =>
      obtain ⟨hdone, hΩ⟩ := hchild p hp
      have hrun : ∀ next : Turn Activity → Step (World.M Activity),
          ((child.start T : Step (World.M Activity)) >>= next).run p =
            (next (.done (.ok ()))).run ((child.start T : Step (World.M Activity)).run p).2 := fun next => by
        rw [← hdone]
        rfl
      rw [hrun]
      refine ih (fun hfinished => ?_) hΩ
      have hmax : max 0 (lastOf ks) ≠ 0 := hlast hfinished
      rwa [Nat.zero_max] at hmax
    | succ k =>
      obtain ⟨left, hleft, hΩ, -⟩ := hchild p hp
      have hrun : ∀ next : Turn Activity → Step (World.M Activity),
          ((child.start T : Step (World.M Activity)) >>= next).run p =
            (next (.waiting left)).run ((child.start T : Step (World.M Activity)).run p).2 := fun next => by
        rw [← hleft]
        rfl
      rw [hrun]
      exact ih (by simp) hΩ

theorem stays_startMany {ks : List Nat} {children : List (Node Callable)}
    (h : List.Forall₂ (fun k (child : Node Callable) => EndsAfter Ω (fun _ _ => True) k (child.start T) g) ks children)
    (hlast : lastOf ks ≠ 0) : Stays Ω (Node.startMany true children T) g := by
  intro j
  cases j with
  | zero => trivial
  | succ j =>
    intro p hp
    obtain ⟨hstuck, hΩ⟩ := stuck_of_startMany h (fun _ => hlast) hp
    exact ⟨.stuck, hstuck, hΩ, stays_stuck j⟩

/-! ### Blocking actions -/

/-- A blocking action: one of a tree, or the block for the end of a phase. -/
def Node.IsBlocking (node : Node Callable) (wait : Float) (children : List (Node Callable)) : Prop :=
  node = .action wait true children ∨ node = .endBlock wait true children

theorem Node.IsBlocking.start_eq {node : Node Callable} {wait : Float} {children : List (Node Callable)}
    (h : node.IsBlocking wait children) : (node.start T : Step (World.M Activity)) =
      (do
        let turn ← delayed wait T
        turn.followedBy (.spread true children T)
          (Step.onSuccess (Node.together true children T (Node.startParts children T)
            (Node.startMany true children T)))) := by
  rcases h with rfl | rfl <;> rw [Node.start]

/-- The children of a blocking action that are few, or all over at once. -/
theorem endsAfter_together {ks ends : List Nat} {children : List (Node Callable)}
    (h : List.Forall₂ (fun k (child : Node Callable) => EndsAfter Ω (fun _ _ => True) k (child.start T) g)
      ks children)
    (hends : (ends.filter fun e => g ≤ e) = ks.map (g + ·))
    (hfew : children.length ≤ joinLimit ∨ lastOf ks = 0) :
    EndsAfter Ω (fun g a => Joins Ω (ends.filter fun e => g ≤ e) g a) (lastOf ks)
      (Node.together true children T (Node.startParts children T) (Node.startMany true children T)) g := by
  rw [Node.together, if_pos rfl]
  split
  · exact (partsEnd_startParts h).ofParts hends
  · rename_i hmany
    have hlast := hfew.resolve_left hmany
    rw [hlast]
    exact endsAfter_startMany h hlast

/-- The children of a blocking action that are many, and not all over at once. -/
theorem stays_together {ks : List Nat} {children : List (Node Callable)}
    (h : List.Forall₂ (fun k (child : Node Callable) => EndsAfter Ω (fun _ _ => True) k (child.start T) g)
      ks children)
    (hmany : joinLimit < children.length) (hlast : lastOf ks ≠ 0) :
    Stays Ω (Node.together true children T (Node.startParts children T) (Node.startMany true children T)) g := by
  rw [Node.together, if_pos rfl, if_neg (Nat.not_le.2 hmany)]
  exact stays_startMany h hlast

end

namespace Machine

variable {Ω : Nat → Machine → Prop} {J : Nat → Activity → Prop} {acts : Nat → List Outside} {dt : Float}
  {m : Machine} {start : Nat} {first : Poll} {a : Activity} {k : Nat}

/-- A task that carries an activity which is over at some point takes turns until then. -/
theorem follow_endsAfter (hfirst : follow acts dt m start 0 = some first) (htask : first.task.Carries a)
    (hends : EndsAfter Ω J k a.turn m.clock.frame)
    (hruns : ∀ n poll, follow acts dt m start n = some poll → Ω (m.clock.frame + n) poll.before) :
    (∀ n, (follow acts dt m start n).isSome ↔ n ≤ k) ∧
    (∀ poll, follow acts dt m start k = some poll → (poll.task.step poll.before).1 = .done (.ok ())) ∧
    ∀ n, 0 < n → ∀ poll, follow acts dt m start n = some poll →
      ∃ left, poll.task.Carries left ∧ J (m.clock.frame + n) left := by
  have hreach : ∀ n ≤ k, ∃ poll left, follow acts dt m start n = some poll ∧ poll.task.Carries left ∧
      (0 < n → J (m.clock.frame + n) left) ∧ EndsAfter Ω J (k - n) left.turn (m.clock.frame + n) := by
    intro n
    induction n with
    | zero => exact fun _ => ⟨first, a, hfirst, htask, fun h => absurd h (Nat.lt_irrefl 0), hends⟩
    | succ n ih =>
      intro hn
      obtain ⟨poll, left, hpoll, hleft, -, hleftEnds⟩ := ih (by omega)
      obtain ⟨j, hj⟩ : ∃ j, k - n = j + 1 := ⟨k - (n + 1), by omega⟩
      rw [hj] at hleftEnds
      obtain ⟨rest, hrest, -, hJ, hrestEnds⟩ := hleftEnds poll.before (hruns n poll hpoll)
      obtain ⟨next, hnext, hcarries⟩ := (hleft.step poll.before).2.2 rest hrest
      obtain ⟨poll', hpoll', htask'⟩ := follow_succ hpoll (by rw [Poll.kept_eq, hnext]; rfl)
      have hsub : k - (n + 1) = j := by omega
      exact ⟨poll', rest, hpoll', htask' ▸ hcarries, fun _ => hJ, hsub ▸ hrestEnds⟩
  have hlast : ∀ poll, follow acts dt m start k = some poll →
      (poll.task.step poll.before).1 = .done (.ok ()) := by
    intro poll hpoll
    obtain ⟨poll', left, hpoll', hleft, -, hleftEnds⟩ := hreach k (Nat.le_refl k)
    obtain rfl : poll = poll' := Option.some.inj (hpoll.symm.trans hpoll')
    rw [Nat.sub_self] at hleftEnds
    exact (hleft.step poll.before).2.1 _ (hleftEnds poll.before (hruns k poll hpoll)).1
  have hover : ∀ n, k < n → follow acts dt m start n = none := by
    intro n hn
    obtain ⟨poll, -, hpoll, -⟩ := hreach k (Nat.le_refl k)
    refine follow_none_of_le (follow_succ_of_finished hpoll ?_) hn
    rw [Poll.kept_eq, hlast poll hpoll]
    rfl
  refine ⟨fun n => ⟨fun hsome => ?_, fun hn => ?_⟩, hlast, fun n hn poll hpoll => ?_⟩
  · by_contra hlt
    rw [hover n (by omega)] at hsome
    cases hsome
  · obtain ⟨poll, -, hpoll, -⟩ := hreach n hn
    rw [hpoll]
    rfl
  · have hle : n ≤ k := by
      by_contra hlt
      rw [hover n (by omega)] at hpoll
      cases hpoll
    obtain ⟨poll', left, hpoll', hleft, hJ, -⟩ := hreach n hle
    obtain rfl : poll = poll' := Option.some.inj (hpoll.symm.trans hpoll')
    exact ⟨left, hleft, hJ hn⟩

/-- A task that carries an activity which is never over takes a turn in every frame. -/
theorem follow_stays (hfirst : follow acts dt m start 0 = some first) (htask : first.task.Carries a)
    (hstays : Stays Ω a.turn m.clock.frame)
    (hruns : ∀ n poll, follow acts dt m start n = some poll → Ω (m.clock.frame + n) poll.before) (n : Nat) :
    ∃ poll rest, follow acts dt m start n = some poll ∧ (poll.task.step poll.before).1 = .waiting rest := by
  have hreach : ∀ n j, ∃ poll left, follow acts dt m start n = some poll ∧ poll.task.Carries left ∧
      StaysFor Ω j left.turn (m.clock.frame + n) := by
    intro n
    induction n with
    | zero => exact fun j => ⟨first, a, hfirst, htask, hstays j⟩
    | succ n ih =>
      intro j
      obtain ⟨poll, left, hpoll, hleft, hleftStays⟩ := ih (j + 1)
      obtain ⟨rest, hrest, -, hrestStays⟩ := hleftStays poll.before (hruns n poll hpoll)
      obtain ⟨next, hnext, hcarries⟩ := (hleft.step poll.before).2.2 rest hrest
      obtain ⟨poll', hpoll', htask'⟩ := follow_succ hpoll (by rw [Poll.kept_eq, hnext]; rfl)
      exact ⟨poll', rest, hpoll', htask' ▸ hcarries, hrestStays⟩
  obtain ⟨poll, left, hpoll, hleft, hleftStays⟩ := hreach n 1
  obtain ⟨rest, hrest, -⟩ := hleftStays poll.before (hruns n poll hpoll)
  obtain ⟨next, hnext, -⟩ := (hleft.step poll.before).2.2 rest hrest
  exact ⟨poll, next, hpoll, hnext⟩

end Machine

/-- Children that are over in certain frames, with the frames counted from their start. -/
theorem exists_endsAfter {Ω : Nat → Machine → Prop} {T : CancelToken} {s : Nat} {children : List (Node Callable)}
    {ends : List Nat}
    (h : List.Forall₂ (fun (child : Node Callable) e => FinishesAt Ω (child.start T) s e) children ends) :
    ∃ ks, ends = ks.map (s + ·) ∧ List.Forall₂
      (fun k (child : Node Callable) => EndsAfter Ω (fun _ _ => True) k (child.start T) s) ks children := by
  induction h with
  | nil => exact ⟨[], rfl, .nil⟩
  | cons hchild _ ih =>
    obtain ⟨k, rfl, hk⟩ := hchild
    obtain ⟨ks, rfl, hks⟩ := ih
    exact ⟨k :: ks, rfl, .cons hk hks⟩

theorem foldr_max_map (ks : List Nat) (s : Nat) : (ks.map (s + ·)).foldr max s = s + lastOf ks := by
  induction ks with
  | nil => rfl
  | cons k ks ih =>
    have hlast : lastOf (k :: ks) = max k (lastOf ks) := rfl
    rw [List.map_cons, List.foldr_cons, ih, hlast]
    omega

/-- A blocking action of many children that are not all over at once is never over. -/
theorem Node.IsBlocking.stays {Ω : Nat → Machine → Prop} {T : CancelToken} {node : Node Callable} {wait : Float}
    {children : List (Node Callable)} {ends : List Nat} {f delay : Nat} (hnode : node.IsBlocking wait children)
    (hlive : ∀ g p, Ω g p → ¬ T.isCancelled p.sources) (hframes : ∀ g p, Ω g p → p.clock.framesFor wait = delay)
    (hchildren : List.Forall₂
      (fun (child : Node Callable) e => FinishesAt Ω (child.start T) (f + delay) e) children ends)
    (hmany : joinLimit < children.length) (hlast : ends.foldr max (f + delay) ≠ f + delay) :
    Stays Ω (Activity.start node T).turn f := by
  obtain ⟨ks, rfl, hks⟩ := exists_endsAfter hchildren
  rw [foldr_max_map] at hlast
  rw [Activity.turn, hnode.start_eq]
  refine EndsAfter.followedBy_stays (J := fun _ _ => True) ?_ rfl
    (stays_together hks hmany fun h => hlast (by omega))
  exact endsAfter_delayed hlive hframes fun _ _ _ => trivial

open Machine in
/-- A blocking action under a live token, each of whose children is over in some frame whatever the others do. If
there are at most 30 children, or if all of them are over in the frame in which they start, then the action is over
exactly with the last of them, and until then it waits for those that are not over. Otherwise it is never over. -/
theorem blocking_action_finishes {Ω : Nat → Machine → Prop} {T : CancelToken} {acts : Nat → List Outside}
    {dt : Float} {m : Machine} {start : Nat} {first : Machine.Poll} {node : Node Callable} {wait : Float}
    {children : List (Node Callable)} {ends : List Nat} {delay : Nat} (hnode : node.IsBlocking wait children)
    (hfirst : follow acts dt m start 0 = some first) (htask : node.IsTask T first.task)
    (hlive : ∀ g p, Ω g p → ¬ T.isCancelled p.sources) (hframes : ∀ g p, Ω g p → p.clock.framesFor wait = delay)
    (hruns : ∀ n poll, follow acts dt m start n = some poll → Ω (m.clock.frame + n) poll.before)
    (hchildren : List.Forall₂
      (fun (child : Node Callable) e => FinishesAt Ω (child.start T) (m.clock.frame + delay) e) children ends) :
    let f := m.clock.frame
    let s := f + delay
    let last := ends.foldr max s
    (children.length ≤ joinLimit ∨ last = s →
      (∀ n, (follow acts dt m start n).isSome ↔ f + n ≤ last) ∧
      (∀ n poll, follow acts dt m start n = some poll → f + n = last →
        (poll.task.step poll.before).1 = .done (.ok ())) ∧
      ∀ n poll, follow acts dt m start n = some poll → s < f + n →
        ∃ left, poll.task.Carries left ∧ Joins Ω (ends.filter fun e => f + n ≤ e) (f + n) left) ∧
    (joinLimit < children.length ∧ last ≠ s → ∀ n, ∃ poll rest, follow acts dt m start n = some poll ∧
      (poll.task.step poll.before).1 = .waiting rest) := by
  intro f s last
  obtain ⟨ks, rfl, hks⟩ := exists_endsAfter hchildren
  have hlast : last = s + lastOf ks := foldr_max_map ks s
  have hcarries : first.task.Carries (.start node T) := htask
  constructor
  · intro hfew
    have hends : ((ks.map (s + ·)).filter fun e => s ≤ e) = ks.map (s + ·) :=
      List.filter_eq_self.2 fun e he => by
        obtain ⟨k, -, rfl⟩ := List.mem_map.1 he
        simp
    have htogether := (endsAfter_together hks hends (hfew.imp_right fun h => by omega)).mono
      (K := fun g a => s < g → Joins Ω ((ks.map (s + ·)).filter fun e => g ≤ e) g a) fun _ _ h _ => h
    have hwhole : EndsAfter Ω (fun g a => s < g → Joins Ω ((ks.map (s + ·)).filter fun e => g ≤ e) g a)
        (delay + lastOf ks) (Activity.start node T).turn f := by
      rw [Activity.turn, hnode.start_eq]
      refine EndsAfter.followedBy ?_ rfl htogether
      exact endsAfter_delayed hlive hframes fun g left hg hlt => absurd hlt (Nat.not_lt.2 hg)
    obtain ⟨hturns, hdone, hjoins⟩ := follow_endsAfter hfirst hcarries hwhole hruns
    refine ⟨fun n => (hturns n).trans (by omega), fun n poll hpoll hn => ?_, fun n poll hpoll hn => ?_⟩
    · obtain rfl : n = delay + lastOf ks := by omega
      exact hdone poll hpoll
    · obtain ⟨left, hleft, hjoin⟩ := hjoins n (by omega) poll hpoll
      exact ⟨left, hleft, hjoin hn⟩
  · rintro ⟨hmany, hne⟩
    exact follow_stays hfirst hcarries (hnode.stays hlive hframes hchildren hmany hne) hruns

/-! ### Plain children -/

/-- The runs in which plain trees can go on, frame by frame. -/
def Steady (E : Callable → Prop) (F : Forecast) (T : CancelToken) (g : Nat) (p : Machine) : Prop :=
  p.Goes E F T ∧ p.clock.frame = g

/-- Plain trees do not depend on what runs beside them: each is over when its course is. -/
theorem Activity.Plain.endsAfter {E : Callable → Prop} {F : Forecast} {T : CancelToken} {a : Activity} {g k : Nat}
    (ha : a.Plain E F T) (hends : (a.timeline F g).ends = some (g + k)) :
    EndsAfter (Steady E F T) (fun _ _ => True) k a.turn g := by
  have hsteady : ∀ {a : Activity} {g : Nat}, a.Plain E F T → ∀ p, Steady E F T g p →
      Steady E F T g (a.step p).2 ∧ (a.timeline F g).Leads E F T g (a.step p).1 := by
    rintro a g ha p ⟨hp, hg⟩
    obtain ⟨hdoes, hleads⟩ := a.realizes_turn ha g p hp hg
    exact ⟨⟨hp.does hdoes, by rw [hdoes.clock, hg]⟩, hleads⟩
  induction k generalizing a g with
  | zero =>
    intro p hp
    obtain ⟨hp', hleads⟩ := hsteady ha p hp
    refine ⟨?_, hp'⟩
    cases hturn : (a.step p).1 with
    | done answer =>
      rw [hturn] at hleads
      rw [hleads.1]
    | waiting rest =>
      rw [hturn] at hleads
      exact absurd hends hleads.2.1
  | succ k ih =>
    intro p hp
    obtain ⟨hp', hleads⟩ := hsteady ha p hp
    cases hturn : (a.step p).1 with
    | done answer =>
      rw [hturn] at hleads
      have := Option.some.inj (hends.symm.trans hleads.2)
      omega
    | waiting rest =>
      rw [hturn] at hleads
      refine ⟨rest, rfl, hp', trivial, ih hleads.1 ?_⟩
      have hrest : (rest.timeline F (g + 1)).ends = (a.timeline F g).ends := by rw [hleads.2.2]; rfl
      rw [hrest, hends, Nat.add_assoc, Nat.add_comm 1 k]

/-! ### A wait beside trees that do nothing -/

/-- An action of a tree that waits for a frame and of some that do nothing. -/
def waitBeside (count : Nat) : Node Callable :=
  .action 0.0 true (.leaf (.wait (constantly (.float 0.1))) :: List.replicate count (.sequence 0.0 []))

/-- The runs of constants. -/
def ofConstants : Nat → Machine → Prop := Steady (fun c => ∃ value, c = constantly value) constantForecast .none

theorem framesFor_zero {g : Nat} {p : Machine} (hp : ofConstants g p) : p.clock.framesFor 0.0 = 0 := by
  have hzero : (⟨0.1, 0⟩ : FrameClock).framesFor 0.0 = 0 := by decide +kernel
  exact (FrameClock.framesFor_congr hp.1.right.frameTime 0.0).trans hzero

/-- Alone, each of the children is over at once, but for the one that waits. -/
theorem waitBeside_children (count : Nat) :
    List.Forall₂ (fun (child : Node Callable) e => FinishesAt ofConstants (child.start .none) 0 e)
      (.leaf (.wait (constantly (.float 0.1))) :: List.replicate count (.sequence 0.0 []))
      (1 :: List.replicate count 0) := by
  have hnone : constantForecast.framesOf 0.0 = 0 := by decide +kernel
  have hone : constantForecast.framesOf 0.1 = 1 := by decide +kernel
  refine .cons ⟨1, rfl, ?_⟩ ?_
  · have hwait : (Node.leaf (.wait (constantly (.float 0.1)))).Plain
        (fun c => ∃ value, c = constantly value) constantForecast := .leaf ⟨⟨_, rfl⟩, fun _ => ⟨0.1, rfl⟩⟩
    refine (Activity.Plain.start hwait).endsAfter ?_
    have hnumber : constantForecast.numberAt (constantly (.float 0.1)) 0 = 0.1 := rfl
    rw [Activity.timeline, Node.timeline, Leaf.timeline]
    dsimp only
    rw [hnumber, hone]
    rfl
  · induction count with
    | zero => exact .nil
    | succ count ih =>
      refine .cons ⟨0, rfl, ?_⟩ ih
      have hempty : (Node.sequence 0.0 []).Plain (fun c => ∃ value, c = constantly value) constantForecast :=
        .sequence (by simp)
      refine (Activity.Plain.start hempty).endsAfter ?_
      rw [Activity.timeline, Node.timeline, hnone, Node.timelineInTurn]
      rfl

theorem waitBeside_runs (count : Nat) : ∀ n poll,
    Machine.follow (fun _ => []) 0.1 (soleTree (waitBeside count)) 0 n = some poll → ofConstants (0 + n) poll.before :=
  fun n poll hpoll => by
    have hclock := Machine.follow_clock hpoll
    exact ⟨goes_of_constant (by rw [hclock]; rfl), by rw [hclock]; rfl⟩

/-- Beside one tree that does nothing, the wait is over in the second frame, and with it the action. -/
theorem waitBeside_one_finishes :
    ∃ poll, Machine.follow (fun _ => []) 0.1 (soleTree (waitBeside 1)) 0 1 = some poll ∧
      (poll.task.step poll.before).1 = .done (.ok ()) := by
  have hblocking : (waitBeside 1).IsBlocking 0.0 (.leaf (.wait (constantly (.float 0.1))) ::
    List.replicate 1 (.sequence 0.0 [])) := .inl rfl
  have hlive : ∀ g p, ofConstants g p → ¬ CancelToken.none.isCancelled p.sources := fun _ _ hp => hp.1.live
  obtain ⟨hfew, -⟩ := blocking_action_finishes hblocking rfl (.inr rfl) hlive
    (fun _ _ hp => framesFor_zero hp) (waitBeside_runs 1) (waitBeside_children 1)
  obtain ⟨hturns, hdone, -⟩ := hfew (.inl (by decide))
  obtain ⟨poll, hpoll⟩ := Option.isSome_iff_exists.1 ((hturns 1).2 (by decide))
  exact ⟨poll, hpoll, hdone 1 poll hpoll rfl⟩

/-- An action that hangs: beside 30 trees that do nothing nobody looks at the wait again. Alone, each of its
children would be over in the second frame at the latest. -/
theorem crowded_action_hangs :
    (∃ wait children, waitBeside 30 = .action wait true children ∧ List.Forall₂
      (fun (child : Node Callable) e => FinishesAt ofConstants (child.start .none) 0 e) children
      (1 :: List.replicate 30 0)) ∧
    ∀ n, ∃ poll rest, Machine.follow (fun _ => []) 0.1 (soleTree (waitBeside 30)) 0 n = some poll ∧
      (poll.task.step poll.before).1 = .waiting rest := by
  refine ⟨⟨_, _, rfl, waitBeside_children 30⟩, ?_⟩
  have hblocking : (waitBeside 30).IsBlocking 0.0 (.leaf (.wait (constantly (.float 0.1))) ::
    List.replicate 30 (.sequence 0.0 [])) := .inl rfl
  have hlive : ∀ g p, ofConstants g p → ¬ CancelToken.none.isCancelled p.sources := fun _ _ hp => hp.1.live
  have hstays := hblocking.stays (f := 0) hlive (fun _ _ hp => framesFor_zero hp) (waitBeside_children 30)
    (by decide) (by decide)
  exact Machine.follow_stays (m := soleTree (waitBeside 30)) rfl (.inr rfl) hstays (waitBeside_runs 30)

end Barrage
