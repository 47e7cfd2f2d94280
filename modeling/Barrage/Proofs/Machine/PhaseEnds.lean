import Barrage.Proofs.Machine.PhaseFrames
import Barrage.Proofs.Machine.Timelines
import Mathlib.Order.Bounds.Basic

/-!
# When a phase ends, and why

A phase can be over because its children are, because its time is up, or because something cuts it from outside.
Which of these comes first decides, and since they happen in different tasks, and between frames, their order in
one frame matters: a phase that is cut before the very frame in which its children would be over is cut.

The phase may stand at any place of its task, with any parts beside it that have nothing to do with phases, as long
as it keeps that place; `Activity.exists_enters` tells that there is such a place for every phase. Other tasks may
watch the times of phases around it, as long as none of these is up. What goes wrong if it is not so is shown at the
end, one run for each condition.

## Main definitions

* `PhaseRun.OverAfter`: a phase is over after so many frames, for some cause
* `EndsAsAlone`: a phase ends as if nothing else were there

## Main results

* `phase_ends`: when a phase of plain children ends, and why
* `phase_ends_fails`: phases that do not end as if they were alone
-/

namespace Barrage

open Machine

namespace PhaseRun

variable (run : PhaseRun) (acts : Nat → List Outside) (dt : Float) (m : Machine)

/-- The phase is over after so many frames, not earlier, and its end is written down with its cause. -/
def OverAfter (ended : List Completion) (k : Nat) (cause : ClearCause) : Prop :=
  (∀ r, 0 < r → r ≤ k → (states acts dt m r).shared.campaign.completions = ended) ∧
    ended ++ [⟨run.index, run.phase.props.title, run.phase.props.type, cause, k⟩] <+:
      (states acts dt m (k + 1)).shared.campaign.completions

variable {run acts dt m} {E : Callable → Prop} {F : Forecast} {T : CancelToken} {phase : Phase Callable}
  {index quiet : Nat} {p q : Machine} {layers : List Layer} {done : List Machine.Poll} {after : List Activity}
  {a : Activity}

/-- What is written down before the next frame stays so. -/
theorem completions_states (r : Nat) :
    (states acts dt m r).tick.shared.campaign.completions <+:
      (states acts dt m (r + 1)).shared.campaign.completions :=
  (acted_advances (acts (r + 1)) ((states acts dt m r).tick.closed dt)).completions

/-- Why a phase was cut, read from its run. -/
theorem cutCause_eq {frames : Nat} {c : Nat}
    (hexpired : p.sources.isExpired run.source ↔ run.phase.props.timeout > 0.0 ∧ c = frames + 1) :
    run.cutCause p =
      if p.hp ≤ 0.0 ∧ run.phase.props.hp > 0.0 then .hp
      else if run.phase.props.timeout > 0.0 ∧ c = frames + 1 then .timeout else .cancelled := by
  have hhp : (decide (p.hp ≤ 0.0) && decide (run.phase.props.hp > 0.0)) = true ↔
      p.hp ≤ 0.0 ∧ run.phase.props.hp > 0.0 := by
    rw [Bool.and_eq_true, decide_eq_true_eq, decide_eq_true_eq]
  exact ite_congr (propext hhp) (fun _ => rfl) fun _ => ite_congr (propext hexpired) (fun _ => rfl) fun _ => rfl

/-- The frame in which a phase is over, counted from the one in which it started. -/
theorem AmongBystanders.completion_eq (h : AmongBystanders acts dt E F phase index T m done a after p q layers quiet)
    (k : Nat) (cause : ClearCause) :
    let run := opened phase index T q
    run.completion cause (m.clock.frame + k) = ⟨run.index, run.phase.props.title, run.phase.props.type, cause, k⟩ := by
  intro run
  have hframe : run.started = m.clock.frame := congrArg FrameClock.frame h.clock
  rw [completion, hframe, Nat.add_sub_cancel_left]

namespace AmongBystanders

variable (h : AmongBystanders acts dt E F phase index T m done a after p q layers quiet)

include h

/-- Nothing is written down before the frame in which a phase is over. -/
theorem completions_eq {k : Nat} (hk : k ≤ quiet)
    (hends : ∀ j < k, (phase.timeline F m.clock.frame).ends ≠ some (m.clock.frame + j))
    (hcut : ∀ j < k, 0 < j → ¬ (opened phase index T q).Cut acts dt m j)
    (hkeeps : ∀ j < k, ¬ (startTurn phase index T layers q).LosesPlace acts dt m done.length j) :
    ∀ r, 0 < r → r ≤ k → (states acts dt m r).shared.campaign.completions = q.shared.campaign.completions := by
  intro r hr hrk
  obtain ⟨r, rfl⟩ := Nat.exists_eq_add_of_lt hr
  rw [Nat.zero_add] at hrk ⊢
  obtain ⟨rest, layers', here, hstays⟩ := h.stays (Nat.lt_of_lt_of_le hrk hk) (fun j hj => hends j (by omega))
    (fun j hj => hcut j (by omega)) fun j hj => hkeeps j (by omega)
  exact hstays.going.underway.completions

/-- A phase whose children are over before anything cuts it ends with them. -/
theorem overAfter_children {d : Nat} (hd : d ≤ quiet)
    (hover : (phase.timeline F m.clock.frame).ends = some (m.clock.frame + d))
    (hbefore : ∀ r, 0 < r → (opened phase index T q).Cut acts dt m r → d < r)
    (hkeeps : ∀ r < d, ¬ (startTurn phase index T layers q).LosesPlace acts dt m done.length r) :
    (opened phase index T q).OverAfter acts dt m q.shared.campaign.completions d .cleared := by
  have hends : ∀ j < d, (phase.timeline F m.clock.frame).ends ≠ some (m.clock.frame + j) := fun j hj hne => by
    have := Option.some.inj (hover.symm.trans hne)
    omega
  have hcut : ∀ j ≤ d, 0 < j → ¬ (opened phase index T q).Cut acts dt m j := fun j hj hpos hcut => by
    have := hbefore j hpos hcut
    omega
  refine ⟨h.completions_eq hd hends (fun j hj => hcut j (Nat.le_of_lt hj)) hkeeps, ?_⟩
  refine List.IsPrefix.trans ?_ (completions_states d)
  rw [← h.completion_eq]
  cases d with
  | zero => exact h.first.1 hover
  | succ d =>
    obtain ⟨rest, layers', here, hstays⟩ := h.stays hd (fun j hj => hends j (by omega))
      (fun j hj => hcut j (by omega)) fun j hj => hkeeps j (by omega)
    obtain ⟨poll, layers'', q', hpoll, hlead⟩ := hstays.exists_turn (hkeeps d (Nat.lt_succ_self d))
    obtain ⟨-, hunderway, hcancelled, -⟩ := hstays.going
    have hlive : ¬ (opened phase index T q).joint.isCancelled (states acts dt m (d + 1)).sources := fun hc =>
      hcut (d + 1) (Nat.le_refl _) (Nat.succ_pos d) (hcancelled.1 hc)
    have hframe : (states acts dt m (d + 1)).clock.frame = m.clock.frame + (d + 1) := by rw [states_clock]
    have hwrites := hunderway.clears hpoll hlead hlive (h.right_later d _ (hstays.turns_succ hpoll hlead).1)
      (by rw [hframe]; exact hover)
    rwa [hframe] at hwrites

/-- A phase that is cut before its children are over ends in the frame in which it is cut. -/
theorem overAfter_cut {c : Nat} (hc : c ≤ quiet)
    (hleast : IsLeast {r | 0 < r ∧ (opened phase index T q).Cut acts dt m r} c)
    (hlate : ∀ d, (phase.timeline F m.clock.frame).ends = some (m.clock.frame + d) → c ≤ d)
    (hkeeps : ∀ r < c, ¬ (startTurn phase index T layers q).LosesPlace acts dt m done.length r) :
    ∃ t, (startTurn phase index T layers q).turns acts dt m done.length c = some t ∧
      (opened phase index T q).OverAfter acts dt m q.shared.campaign.completions c
        (if Machine.hp t.before ≤ 0.0 ∧ phase.props.hp > 0.0 then .hp
        else if phase.props.timeout > 0.0 ∧ c = m.clock.framesFor phase.props.timeout + 1 then .timeout
        else .cancelled) := by
  obtain ⟨⟨hpos, hcut⟩, hleast⟩ := hleast
  have hends : ∀ j < c, (phase.timeline F m.clock.frame).ends ≠ some (m.clock.frame + j) := fun j hj hne => by
    have := hlate j hne
    omega
  have hnot : ∀ j < c, 0 < j → ¬ (opened phase index T q).Cut acts dt m j := fun j hj hpos hcut => by
    have := hleast ⟨hpos, hcut⟩
    omega
  obtain ⟨c, rfl⟩ := Nat.exists_eq_add_of_lt hpos
  rw [Nat.zero_add] at *
  obtain ⟨rest, layers', here, hstays⟩ := h.stays hc (fun j hj => hends j (by omega))
    (fun j hj => hnot j (by omega)) fun j hj => hkeeps j (by omega)
  obtain ⟨poll, layers'', q', hpoll, hlead⟩ := hstays.exists_turn (hkeeps c (Nat.lt_succ_self c))
  obtain ⟨-, hunderway, hcancelled, hexpired⟩ := hstays.going
  obtain ⟨hagrees, hover⟩ := hunderway.cut hpoll hlead (hcancelled.2 hcut)
  refine ⟨_, (hstays.turns_succ hpoll hlead).1, h.completions_eq hc hends hnot hkeeps, ?_⟩
  refine List.IsPrefix.trans ?_ (completions_states (c + 1))
  have hframe : (states acts dt m (c + 1)).clock.frame = m.clock.frame + (c + 1) := by rw [states_clock]
  rw [← h.completion_eq, ← hframe]
  -- Whether its time is up has not changed before its turn, so the cause can be told from what was before the frame.
  have hexpired' : q'.sources.isExpired (opened phase index T q).source ↔
      phase.props.timeout > 0.0 ∧ c + 1 = m.clock.framesFor phase.props.timeout + 1 := by
    rw [hagrees.isExpired_source (opened phase index T q).source_mem_joint]
    exact hexpired
  rwa [cutCause_eq hexpired'] at hover

end AmongBystanders

end PhaseRun

open PhaseRun

/-- When a phase ends, and why, in the frames in which the other tasks leave it alone. Let its children be over after so
many frames, if nothing cuts it, and let something cut it in the least of some frames, where its own time does so one
frame after it is up. As long as it keeps its place, a phase whose children are over before that ends with them.
Otherwise it ends in the frame in which it is cut: for its hit points, if it has some and there are none left, else for
its time, if that is up, else since it was cancelled. If neither ever happens, it does not end. Plain parts beside a
phase that goes on do not make it lose its place, unless the token around it is cancelled and some of them stand before
it. -/
theorem phase_ends {acts : Nat → List Outside} {dt : Float} {E : Callable → Prop} {F : Forecast}
    {phase : Phase Callable} {index : Nat} {T : CancelToken} {m p q : Machine} {done : List Machine.Poll}
    {a : Activity} {after : List Activity} {layers : List Layer} {quiet : Nat}
    (h : AmongBystanders acts dt E F phase index T m done a after p q layers quiet) :
    let run := opened phase index T q
    let frames := m.clock.framesFor phase.props.timeout
    let ends := (phase.timeline F m.clock.frame).ends
    let ended := q.shared.campaign.completions
    let first := startTurn phase index T layers q
    (∀ d ≤ quiet, ends = some (m.clock.frame + d) → (∀ r, 0 < r → run.Cut acts dt m r → d < r) →
      (∀ r < d, ¬ first.LosesPlace acts dt m done.length r) → run.OverAfter acts dt m ended d .cleared) ∧
    (∀ c ≤ quiet, IsLeast {r | 0 < r ∧ run.Cut acts dt m r} c → (∀ d, ends = some (m.clock.frame + d) → c ≤ d) →
      (∀ r < c, ¬ first.LosesPlace acts dt m done.length r) →
      ∃ t, first.turns acts dt m done.length c = some t ∧
        run.OverAfter acts dt m ended c
          (if Machine.hp t.before ≤ 0.0 ∧ phase.props.hp > 0.0 then .hp
          else if phase.props.timeout > 0.0 ∧ c = frames + 1 then .timeout else .cancelled)) ∧
    (ends = none → (∀ r, 0 < r → ¬ run.Cut acts dt m r) → (∀ r, ¬ first.LosesPlace acts dt m done.length r) →
      ∀ r ≤ quiet, 0 < r → (states acts dt m r).shared.campaign.completions = ended) ∧
    ((∀ layer ∈ layers, layer.Plain E F T) →
      (∀ r poll, follow acts dt m done.length (r + 1) = some poll → F.Right E poll.before) →
      ∀ r < quiet, (∀ j ≤ r, ends ≠ some (m.clock.frame + j)) → (∀ j ≤ r, 0 < j → ¬ run.Cut acts dt m j) →
        (¬ T.isCancelled (states acts dt m (r + 1)).sources ∨ ∀ layer ∈ layers, layer.First) →
        ¬ first.LosesPlace acts dt m done.length r) := by
  intro run frames ends ended first
  refine ⟨fun d => h.overAfter_children, fun c => h.overAfter_cut, fun hnone hnever hkeeps r hr hpos => ?_,
    fun hplain hright r hr hends hcut hlive => h.keeps_place hr hends hcut hplain hright hlive⟩
  exact h.completions_eq hr (fun j _ hne => by cases hnone.symm.trans hne) (fun j _ hpos => hnever j hpos)
    (fun j _ => hkeeps j) r hpos (Nat.le_refl r)

/-! ### A phase among other parts -/

/-- A phase of one child, which waits for some seconds, with some time. -/
def pausingPhase (timeout seconds : Float) : Phase Callable :=
  .mk { timeout := timeout } [.leaf (.wait (constantly (.float seconds)))] none none

theorem pausingPhase_plain (timeout seconds : Float) : ∀ child ∈ (pausingPhase timeout seconds).children,
    child.Plain (fun c => ∃ value, c = constantly value) constantForecast := by
  intro child hchild
  rw [List.mem_singleton.1 hchild]
  exact .leaf ⟨⟨_, rfl⟩, fun _ => ⟨seconds, rfl⟩⟩

theorem pausingPhase_ends (timeout seconds : Float) :
    ((pausingPhase timeout seconds).timeline constantForecast 0).ends = some (constantForecast.framesOf seconds) := by
  have hnumber : constantForecast.numberAt (constantly (.float seconds)) 0 = seconds := rfl
  have hholds : ¬ (pausingPhase timeout seconds).props.hold = true := Bool.false_ne_true
  rw [Phase.ends_timeline, if_neg hholds, pausingPhase, Phase.children, Node.timelineInTurn,
    Node.timelineInTurn, Node.timeline, Leaf.timeline, Timeline.seq_of_some rfl]
  simp only [Timeline.immediate, hnumber, Nat.zero_add]

/-- A child that waits for some time. -/
def pausingChild : Node Callable := .leaf (.wait (constantly (.float 0.3)))

/-- A phase between two children of a blocking action that wait longer than the phase does. -/
def phaseBetween : Node Callable := .action 0.0 true [pausingChild, .phase (pausingPhase 0.1 0.2), pausingChild]

/-- The turn of the task that a run about a tree consists of, in the frame in which the tree starts. -/
def startSole (node : Node Callable) : Machine := { soleTree node with spawned := [] }

/-- The first child has taken its turn, and the phase starts. -/
def startBetween : Machine := (Activity.stepParts [.start pausingChild .none] (startSole phaseBetween)).2

theorem pausingChild_plain :
    (Activity.start pausingChild .none).Plain (fun c => ∃ value, c = constantly value) constantForecast .none :=
  .start (.leaf ⟨⟨_, rfl⟩, fun _ => ⟨0.3, rfl⟩⟩)

/-- The turn of the whole task comes to the phase, after the first child and before the second. -/
theorem phaseBetween_among (quiet : Nat) : ∃ left,
    AmongBystanders (fun _ => []) 0.1 (fun c => ∃ value, c = constantly value) constantForecast
      (pausingPhase 0.1 0.2) 0 .none (soleTree phaseBetween) [] (rootTask phaseBetween .none) []
      (startSole phaseBetween) startBetween [.beside left [.start pausingChild .none], .followed .report] quiet ∧
    (∀ part ∈ left, part.Plain (fun c => ∃ value, c = constantly value) constantForecast .none) ∧
    startBetween.shared.campaign.completions = [] := by
  have hstart : (startSole phaseBetween).Goes (fun c => ∃ value, c = constantly value) constantForecast .none :=
    goes_of_constant rfl
  obtain ⟨left, q, hleft, hgoes, hplain⟩ := Activity.exists_partsLeft? (fun _ h => h)
    (fun a ha => List.mem_singleton.1 ha ▸ pausingChild_plain) hstart
  obtain rfl : startBetween = q := congrArg Prod.snd (Activity.partsLeft?_eq_some_iff.1 hleft)
  have hapart : ∀ a ∈ [Activity.start pausingChild .none],
      a.Apart (opened (pausingPhase 0.1 0.2) 0 .none startBetween).joint := fun a ha =>
    List.mem_singleton.1 ha ▸ pausingChild_plain.apart
  obtain ⟨⟨hspares, new, hspawned, hnew⟩, -⟩ := Activity.undisturbed_of_partsLeft? hapart hleft
  have henters : Step.Enters ((pausingPhase 0.1 0.2).start 0 .none) startBetween (phaseBetween.start .none)
      (startSole phaseBetween) [.beside left [.start pausingChild .none]] := by
    have hframes : (startSole phaseBetween).clock.framesFor 0.0 = 0 := by decide +kernel
    have hdelay : (delayed 0.0 .none : Step (World.M Activity)).run (startSole phaseBetween) =
        (.finished, startSole phaseBetween) := by
      rw [delayed]
      change ((Wait.frames ((startSole phaseBetween).clock.framesFor 0.0) .none).step :
        Step (World.M Activity)).run (startSole phaseBetween) = _
      rw [hframes, Wait.step_eq]
      rfl
    have hphase : Step.Enters ((pausingPhase 0.1 0.2).start 0 .none) startBetween
        ((Node.phase (pausingPhase 0.1 0.2)).start .none) startBetween [] := by
      rw [Node.start]
      exact .here
    exact Step.Enters.together [pausingChild] [pausingChild] hdelay (by decide) hleft hphase
  refine ⟨left, ⟨?_, .followed Continuation.report.advances_apply henters, by simp, ?_, ?_, hgoes.live, ?_,
    pausingPhase_plain 0.1 0.2, ?_, fun r t ht => ?_⟩, hplain, hspares.completions⟩
  · have hround : (soleTree phaseBetween).Round [] [] (soleTree phaseBetween) := .start
    exact hround.fresh (List.cons_ne_nil _ _)
  · rw [hspawned]
    exact fun b hb => .apart (hnew b hb)
  · refine List.forall_mem_cons.2 ⟨fun a ha => ?_, List.forall_mem_singleton.2 trivial⟩
    exact (List.mem_append.1 ha).elim (fun ha => (hplain a ha).apart) (hapart a)
  · simp [CancelToken.none]
  · obtain ⟨hosts, services, hopen⟩ := run_open (pausingPhase 0.1 0.2) 0 .none startBetween
    rw [hopen]
    refine (goes_of_constant ?_).right
    exact congrArg FrameClock.frameTime hspares.clock
  · exact (goes_of_constant (congrArg FrameClock.frameTime (PartTurn.clock_of_turns ht))).right

/-- The time of a phase is up in the frame before the one in which its child would be over, so that the phase is cut
in that very frame, between two children that go on. -/
theorem phase_ends_tied :
    ((pausingPhase 0.1 0.2).timeline constantForecast 0).ends = some 2 ∧
      (opened (pausingPhase 0.1 0.2) 0 .none startBetween).OverAfter (fun _ => []) 0.1 (soleTree phaseBetween) [] 2
        .timeout := by
  have htwo : constantForecast.framesOf 0.2 = 2 := by decide +kernel
  have hone : (soleTree phaseBetween).clock.framesFor (pausingPhase 0.1 0.2).props.timeout = 1 := by decide +kernel
  have htimeout : (pausingPhase 0.1 0.2).props.timeout > 0.0 := by decide +kernel
  have hhp : ¬ (pausingPhase 0.1 0.2).props.hp > 0.0 := by decide +kernel
  have hends := pausingPhase_ends 0.1 0.2
  rw [htwo] at hends
  obtain ⟨left, hamong, hplain, hended⟩ := phaseBetween_among 2
  -- Nothing is done from outside, so that only its time cuts the phase.
  have hcut : ∀ r,
      (opened (pausingPhase 0.1 0.2) 0 .none startBetween).Cut (fun _ => []) 0.1 (soleTree phaseBetween) r → r = 2 := fun r hr => by
    rcases hr with ⟨_, _, hnothing⟩ | ⟨-, hr⟩
    · exact hnothing.elim
    · exact hr.trans (congrArg (· + 1) hone)
  obtain ⟨-, hover, -, hkeeps⟩ := phase_ends hamong
  have hkept := hkeeps (List.forall_mem_cons.2 ⟨⟨.none, fun _ h => h, fun a ha => (List.mem_append.1 ha).elim (hplain a)
    fun ha => List.mem_singleton.1 ha ▸ pausingChild_plain⟩, List.forall_mem_singleton.2 trivial⟩)
    fun r poll hpoll => (goes_of_constant (congrArg FrameClock.frameTime (follow_clock hpoll))).right
  have hframes : ∀ d, some 2 = some (0 + d) → d = 2 := fun d hd => by
    have := Option.some.inj hd
    omega
  obtain ⟨t, -, hover⟩ := hover 2 (Nat.le_refl 2)
    ⟨⟨by decide, .inr ⟨htimeout, congrArg (· + 1) hone.symm⟩⟩, fun r hr => Nat.le_of_eq (hcut r hr.2).symm⟩
    (fun d hd => Nat.le_of_eq (hframes d (hends.symm.trans hd)).symm)
    fun r hr => hkept r hr (fun j hj hne => by have := hframes j (hends.symm.trans hne); omega)
      (fun j hj hpos hj' => by have := hcut j hj'; omega) (.inl (by simp [CancelToken.isCancelled, CancelToken.none]))
  rw [if_neg fun h => hhp h.2, if_pos ⟨htimeout, congrArg (· + 1) hone.symm⟩, hended] at hover
  exact ⟨hends, hover⟩

/-- A phase whose child waits for two frames ends as if it were alone in its run: in the frame in which it is cut from
outside, if there is one by then, and else with its child. -/
def EndsAsAlone (acts : Nat → List Outside) (m : Machine) (run : PhaseRun) : Prop :=
  (∀ c, IsLeast {r | 0 < r ∧ run.Cut acts 0.1 m r} c → c ≤ 2 → run.OverAfter acts 0.1 m [] c .cancelled) ∧
    ((∀ r, 0 < r → run.Cut acts 0.1 m r → 2 < r) → run.OverAfter acts 0.1 m [] 2 .cleared)

/-- A phase whose child waits for two frames. -/
def twoFrames : Phase Callable := pausingPhase 0.0 0.2

/-- A wait for so many seconds, and then something else. -/
def laterOn (seconds : Float) (act : Leaf Callable) : Node Callable :=
  .sequence 0.0 [.leaf (.wait (constantly (.float seconds))), .leaf act]

/-- The phase after another part of a blocking action. -/
def afterPart (other : Node Callable) : Node Callable := .action 0.0 true [other, .phase twoFrames]

/-- The phase before another one in a blocking action. -/
def beforePhase : Node Callable :=
  .action 0.0 true [.phase twoFrames, .phase (.mk { title := some "b" } [pausingChild] none none)]

/-- The phase in a task of its own, which a phase around it detached whose time is up sooner. -/
def detachedWithin : Node Callable :=
  .phase (.mk { timeout := 0.1 } [.action 0.0 false [.phase twoFrames], pausingChild] none none)

/-- Actions before the second frame of a run. -/
def onceActed (action : Outside) : Nat → List Outside
  | 1 => [action]
  | _ => []

section

variable {acts : Nat → List Outside} {m : Machine} {run : PhaseRun}

/-- If nothing is done from outside, the phase is to be cleared after two frames. -/
theorem EndsAsAlone.cleared (h : EndsAsAlone (fun _ => []) m run) (hphase : run.phase = twoFrames) :
    [⟨run.index, none, none, .cleared, 2⟩] <+: (states (fun _ => []) 0.1 m 3).shared.campaign.completions := by
  have hnone : ¬ twoFrames.props.timeout > 0.0 := by decide +kernel
  have hover := h.2 fun r _ hcut => by
    rcases hcut with ⟨_, _, hnothing⟩ | ⟨htimeout, -⟩
    · exact hnothing.elim
    · exact absurd (hphase ▸ htimeout) hnone
  have hwritten := hover.2
  rwa [hphase] at hwritten

/-- If something cuts it before the second frame, it is to be cancelled there. -/
theorem EndsAsAlone.cancelled (h : EndsAsAlone acts m run) (hphase : run.phase = twoFrames)
    (hcut : run.CutAmong (acts 1) (m.tick.closed 0.1)) :
    [⟨run.index, none, none, .cancelled, 1⟩] <+: (states acts 0.1 m 2).shared.campaign.completions := by
  have hleast : IsLeast {r | 0 < r ∧ run.Cut acts 0.1 m r} 1 :=
    ⟨⟨Nat.one_pos, .inl ⟨0, Nat.one_pos, hcut⟩⟩, fun r hr => hr.1⟩
  have hwritten := (h.1 1 hleast (by decide)).2
  rwa [hphase] at hwritten

end

/-- A phase that is not alone in its run need not end as if it were. A part beside it cuts the running phase in the
middle of a frame; another phase beside it is the running one when a shift comes; a part beside it fails; the run is
cancelled while a part waits before it; the time of a phase around it is up in a frame before its turn. -/
theorem phase_ends_fails :
    (twoFrames.timeline constantForecast 0).ends = some 2 ∧
    ¬ EndsAsAlone (fun _ => []) (soleTree (afterPart (laterOn 0.1 .shiftPhase))) ⟨twoFrames, 0, .none, 1, 0⟩ ∧
    ¬ EndsAsAlone (onceActed .shift) (soleTree beforePhase) ⟨twoFrames, 0, .none, 1, 0⟩ ∧
    ¬ EndsAsAlone (fun _ => []) (soleTree (afterPart (laterOn 0.1 (.wait (constantly (.bool true))))))
      ⟨twoFrames, 0, .none, 1, 0⟩ ∧
    ¬ EndsAsAlone (onceActed (.cancel 0)) ((soleSource .live).spawn (rootTask (afterPart pausingChild) (.ofSource 0)))
      ⟨twoFrames, 0, .ofSource 0, 1, 0⟩ ∧
    ¬ EndsAsAlone (fun _ => []) (soleTree detachedWithin) ⟨twoFrames, 0, .ofSource 1, 2, 0⟩ := by
  refine ⟨?_, fun h => ?_, fun h => ?_, fun h => ?_, fun h => ?_, fun h => ?_⟩
  · rw [twoFrames, pausingPhase_ends]
    decide +kernel
  · exact absurd (h.cleared rfl) (by decide +kernel)
  · exact absurd (h.cancelled rfl (.inl trivial)) (by decide +kernel)
  · exact absurd (h.cleared rfl) (by decide +kernel)
  · exact absurd (h.cancelled rfl (.inl (mem_joint.2 (.inl List.mem_cons_self)))) (by decide +kernel)
  · exact absurd (h.cleared rfl) (by decide +kernel)

end Barrage
