import Barrage.Proofs.Machine.PhaseTurns

/-!
# A phase from frame to frame

A phase that has started is in one of two ways over: its children are, or something has cut it. The children take
their turn before the task that watches the time, so a time of so many frames cuts the phase one frame later; and
what is done from outside before a frame cuts the phase in it. As long as neither happens, the phase goes on if it
keeps its place, and just before the next frame it can be told from the run whether it is cut.

All other tasks are bystanders for some number of frames, and so are the parts beside the phase. Whether it keeps its
place depends on the parts: none of them may end with an error. Plain parts do not, unless the token around the phase
is cancelled; and then the phase loses its place only if some of them have their turns before it.

## Main definitions

* `PhaseRun.CutBy`, `PhaseRun.Cut`: what cuts a phase by some frame
* `PhaseRun.AmongBystanders`: a phase that starts among bystanders
* `PhaseRun.Going`, `PhaseRun.Stays`: a phase that goes on

## Main results

* `PhaseRun.AmongBystanders.first`, `PhaseRun.Stays.succ`: the frame in which a phase starts, and those after it
* `PhaseRun.AmongBystanders.stays`: a phase goes on as long as it is not over and keeps its place
* `PhaseRun.AmongBystanders.keeps_place`: plain parts do not make it lose its place
-/

namespace Barrage

open Machine

namespace PhaseRun

variable (run : PhaseRun) (acts : Nat → List Outside) (dt : Float) (m : Machine)

/-- Something that was done from outside within so many frames cuts the phase. -/
def CutBy (r : Nat) : Prop := ∃ i < r, run.CutAmong (acts (i + 1)) ((states acts dt m i).tick.closed dt)

/-- The phase is cut in some frame, counted from the one in which it started: by something that was done from
outside before that frame, or since its time is up. -/
def Cut (r : Nat) : Prop :=
  run.CutBy acts dt m r ∨
    run.phase.props.timeout > 0.0 ∧ r = m.clock.framesFor run.phase.props.timeout + 1

variable {run acts dt m} {E : Callable → Prop} {F : Forecast} {T : CancelToken} {phase : Phase Callable}
  {index start r : Nat} {p q : Machine} {layers layers' : List Layer} {ends : Option Nat} {ended : List Completion}
  {left : Option Nat} {here quiet : Nat} {done : List Machine.Poll} {after : List Activity} {a rest : Activity}
  {poll : Machine.Poll}

/-- How many frames the time of a phase has left that started with so many. -/
def leftAfter (phase : Phase Callable) (frames r : Nat) : Option Nat :=
  if phase.props.timeout > 0.0 ∧ r ≤ frames then some (frames - r) else none

theorem leftAfter_succ (phase : Phase Callable) (frames r : Nat) :
    (leftAfter phase frames r).bind Nat.ppred = leftAfter phase frames (r + 1) := by
  unfold leftAfter
  by_cases htimeout : phase.props.timeout > 0.0
  · rcases Nat.lt_trichotomy r frames with hlt | rfl | hlt
    · obtain ⟨k, rfl⟩ := Nat.exists_eq_add_of_lt hlt
      rw [if_pos ⟨htimeout, by omega⟩, if_pos ⟨htimeout, by omega⟩]
      have hk : r + k + 1 - r = k + 1 := by omega
      rw [hk, Option.bind_some, Nat.ppred_succ]
      congr 1
      omega
    · rw [if_pos ⟨htimeout, Nat.le_refl r⟩, if_neg (by omega), Nat.sub_self]
      rfl
    · rw [if_neg (by omega), if_neg (by omega)]
      rfl
  · rw [if_neg fun h => htimeout h.1, if_neg fun h => htimeout h.1]
    rfl

theorem leftAfter_eq_zero_iff {frames r : Nat} :
    leftAfter phase frames r = some 0 ↔ phase.props.timeout > 0.0 ∧ r = frames := by
  unfold leftAfter
  split
  · rename_i h
    rw [Option.some.injEq]
    constructor
    · exact fun h0 => ⟨h.1, by omega⟩
    · rintro ⟨-, rfl⟩
      exact Nat.sub_self r
  · rename_i h
    simp only [reduceCtorEq, false_iff]
    rintro ⟨htimeout, rfl⟩
    exact h ⟨htimeout, Nat.le_refl r⟩

/-- The turn in which a phase starts, with what stands around it then. -/
def startTurn (phase : Phase Callable) (index : Nat) (T : CancelToken) (layers : List Layer) (q : Machine) : PartTurn :=
  ⟨phase.start index T, layers, q⟩

/-- A phase of plain children starts in some frame: the turn of a task comes to it, all other tasks are bystanders for
so many frames after that one, and all parts beside it are. The forecast is right in all turns of the phase. -/
structure AmongBystanders (acts : Nat → List Outside) (dt : Float) (E : Callable → Prop) (F : Forecast)
    (phase : Phase Callable) (index : Nat) (T : CancelToken) (m : Machine) (done : List Machine.Poll) (a : Activity)
    (after : List Activity) (p q : Machine) (layers : List Layer) (quiet : Nat) : Prop where
  round : m.Round done (a :: after) p
  enters : Step.Enters (phase.start index T) q a.turn p layers
  earlier : ∀ b ∈ done.filterMap Machine.Poll.kept, b.ApartFor (opened phase index T q).joint quiet
  later : ∀ b ∈ after ++ q.spawned, b.ApartFor (opened phase index T q).joint quiet
  beside : ∀ layer ∈ layers, layer.Apart (opened phase index T q).joint
  live : ¬ T.isCancelled q.sources
  known : ∀ source ∈ T.sources, source < q.sources.states.length
  plain : ∀ child ∈ phase.children, child.Plain E F
  right : F.Right E ((PhaseRun.open phase index T).run q).2
  right_later : ∀ r t, (startTurn phase index T layers q).turns acts dt m done.length (r + 1) = some t →
    F.Right E t.before

/-- A phase that goes on just before the frame after so many others, counted from the one in which it started: its
task has its place then, it is cut if something has cut it by then, and the other tasks leave it alone for the rest of
the frames in which they do. -/
structure Going (run : PhaseRun) (acts : Nat → List Outside) (dt : Float) (m : Machine) (start : Nat)
    (E : Callable → Prop) (F : Forecast) (ends : Option Nat) (ended : List Completion) (quiet r : Nat)
    (rest : Activity) (layers : List Layer) (here : Nat) : Prop where
  place : place acts dt m start r = some here
  underway : run.Underway E F ends ended (quiet - r)
    (leftAfter run.phase (m.clock.framesFor run.phase.props.timeout) r) here rest layers (states acts dt m r)
  cancelled : run.joint.isCancelled (states acts dt m r).sources ↔ run.Cut acts dt m r
  expired : (states acts dt m r).sources.isExpired run.source ↔
    run.phase.props.timeout > 0.0 ∧ r = m.clock.framesFor run.phase.props.timeout + 1

/-- A phase goes on after the frame with some number, and so does all that stands after it. -/
structure Stays (first : PartTurn) (run : PhaseRun) (acts : Nat → List Outside) (dt : Float) (m : Machine) (start : Nat)
    (E : Callable → Prop) (F : Forecast) (ends : Option Nat) (ended : List Completion) (quiet r : Nat)
    (rest : Activity) (layers : List Layer) (here : Nat) : Prop where
  waits : ∃ t s, first.turns acts dt m start r = some t ∧ t.result.1 = .waiting (run.part rest) ∧
    Layer.trailAll t.layers t.result.2 = some (layers, s)
  going : run.Going acts dt m start E F ends ended quiet (r + 1) rest layers here

/-! ### The frame in which a phase starts -/

/-- A token of a phase that is opened under a live token is live. -/
theorem joint_live (hlive : ¬ T.isCancelled q.sources) :
    ¬ (opened phase index T q).joint.isCancelled q.sources.make.2 := by
  intro hcancelled
  obtain ⟨source, hmem, hsource⟩ := CancelToken.isCancelled_iff.1 hcancelled
  obtain ⟨state, hstate, hstateLive⟩ := Sources.isCancelled_iff.1 hsource
  have hlt : source < q.sources.states.length := by
    by_contra hge
    rw [Sources.make, List.getElem?_append_right (Nat.le_of_not_lt hge), List.getElem?_singleton] at hstate
    split at hstate
    · exact hstateLive (Option.some.inj hstate).symm
    · cases hstate
  rw [Sources.make, List.getElem?_append_left hlt] at hstate
  rcases mem_joint.1 hmem with hT | rfl
  · exact hlive (CancelToken.isCancelled_iff.2 ⟨source, hT, Sources.isCancelled_iff.2 ⟨state, hstate, hstateLive⟩⟩)
  · exact absurd hlt (Nat.lt_irrefl _)

theorem AmongBystanders.clock (h : AmongBystanders acts dt E F phase index T m done a after p q layers quiet) :
    q.clock = m.clock := by
  have hmem : (⟨a, p⟩ : Machine.Poll) ∈ m.polls :=
    List.mem_of_getElem? (h.round.polls_getElem? Activity.descending).1
  exact h.enters.run.1.clock.trans (clock_of_mem_polls hmem)

/-- A phase that is opened under a live token. -/
theorem AmongBystanders.exists_open (h : AmongBystanders acts dt E F phase index T m done a after p q layers quiet) :
    let run := opened phase index T q
    ∃ entered : Machine, (PhaseRun.open phase index T).run q = (run, entered) ∧ entered.clock = m.clock ∧
      entered.sources = q.sources.make.2 ∧
      run.Others quiet (leftAfter phase (m.clock.framesFor phase.props.timeout) 0) (after ++ entered.spawned) ∧
      run.Held entered ∧ entered.shared.campaign.completions = q.shared.campaign.completions := by
  intro run
  obtain ⟨hosts, services, hopen⟩ := run_open phase index T q
  refine ⟨_, hopen, h.clock, rfl, ?_, ⟨rfl, fun source hsource => ?_⟩, rfl⟩
  · rw [PhaseRun.afterOpen, h.clock]
    change run.Others quiet _ (after ++ (q.spawned ++
      if phase.props.timeout > 0.0 then [run.timer (m.clock.framesFor phase.props.timeout)] else []))
    rw [← List.append_assoc]
    unfold leftAfter
    by_cases htimeout : phase.props.timeout > 0.0
    · rw [if_pos htimeout, if_pos ⟨htimeout, Nat.zero_le _⟩]
      exact ⟨after ++ q.spawned, [], rfl, by simpa using h.later⟩
    · rw [if_neg htimeout, if_neg fun h => htimeout h.1, List.append_nil]
      exact h.later
  · have hlength : q.sources.make.2.states.length = q.sources.states.length + 1 := by simp [Sources.make]
    rcases mem_joint.1 hsource with hT | rfl
    · exact hlength ▸ Nat.lt_succ_of_lt (h.known source hT)
    · exact hlength ▸ Nat.lt_succ_self _

/-! ### From frame to frame -/

theorem cutBy_zero : ¬ run.CutBy acts dt m 0 := fun ⟨i, hi, _⟩ => absurd hi (Nat.not_lt_zero i)

/-- A phase that nothing has cut so far is cut in the next frame if something cuts it before that frame, or if the
task that watches its time has no frames left. -/
theorem cut_succ {r : Nat} (h : ¬ run.CutBy acts dt m r) :
    run.Cut acts dt m (r + 1) ↔ run.CutAmong (acts (r + 1)) ((states acts dt m r).tick.closed dt) ∨
      leftAfter run.phase (m.clock.framesFor run.phase.props.timeout) r = some 0 := by
  rw [leftAfter_eq_zero_iff, Cut, Nat.add_right_cancel_iff]
  refine or_congr_left ⟨fun ⟨i, hi, hcut⟩ => ?_, fun hcut => ⟨r, Nat.lt_succ_self r, hcut⟩⟩
  rcases Nat.lt_succ_iff_lt_or_eq.1 hi with hlt | rfl
  · exact absurd ⟨i, hlt, hcut⟩ h
  · exact hcut

/-- The time of a phase is up after a turn of the task that watches it if it had no frames left. -/
theorem isExpired_timed {s : Sources} (hlive : ¬ s.isCancelled run.source) (hknown : run.source < s.states.length)
    (left : Option Nat) : (run.timed left s).isExpired run.source ↔ left = some 0 := by
  rw [timed]
  split
  · rename_i hleft
    exact iff_of_true (Sources.isExpired_expire hlive hknown) hleft
  · rename_i hleft
    exact iff_of_false (fun hexpired => hlive (Sources.isCancelled_of_isExpired hexpired)) hleft

/-- What is done between two frames to a phase that goes on. -/
theorem Underway.next {s : Sources} {t : Machine} {next : Option Nat}
    (h : run.Underway E F ends ended quiet next here rest layers t)
    (hlive : ¬ run.joint.isCancelled s) (hknown : run.source < s.states.length)
    (hagrees : run.joint.Agrees (run.timed left s) t.sources) (actions : List Outside) :
    run.Underway E F ends ended quiet next here rest layers ((t.closed dt).acted actions) ∧
    (run.joint.isCancelled ((t.closed dt).acted actions).sources ↔
      run.CutAmong actions (t.closed dt) ∨ left = some 0) ∧
    (((t.closed dt).acted actions).sources.isExpired run.source ↔ left = some 0) := by
  have hclosed : run.Held (t.closed dt) := ⟨h.held.shifter, h.held.known⟩
  have hpasses := hclosed.acted actions
  obtain ⟨hclock, htasks, hspawned, hages⟩ := acted_keeps actions (t.closed dt)
  have hsource : ¬ s.isCancelled run.source := fun hcancelled =>
    hlive (CancelToken.isCancelled_iff.2 ⟨_, run.source_mem_joint, hcancelled⟩)
  have hexpired : t.sources.isExpired run.source ↔ left = some 0 := by
    rw [hagrees.isExpired_source run.source_mem_joint]
    exact isExpired_timed hsource hknown left
  refine ⟨⟨hclosed.of_passes hpasses, hpasses.completions.trans h.completions, hspawned.trans h.spawned, ?_,
    h.beside, h.plain, ?_⟩, ?_, ?_⟩
  · rw [htasks]
    exact h.tasks
  · rw [hclock]
    exact h.ends
  · constructor
    · -- If neither of the two has cut the phase, its sources are as they were when it was live.
      intro hcancelled
      by_contra hnot
      rw [not_or] at hnot
      rw [timed, if_neg hnot.2] at hagrees
      have hagrees' : run.joint.Agrees s ((t.closed dt).acted actions).sources := hagrees.trans (hpasses.spares hnot.1)
      rw [hagrees'.isCancelled] at hcancelled
      exact hlive hcancelled
    · rintro (hcut | hleft)
      · exact hpasses.cuts hcut
      · have hcancelled : t.sources.isCancelled run.source := Sources.isCancelled_of_isExpired (hexpired.2 hleft)
        exact CancelToken.isCancelled_of_ages hages
          (CancelToken.isCancelled_iff.2 ⟨_, run.source_mem_joint, hcancelled⟩)
  · rw [hpasses.expired]
    exact hexpired

/-- A phase that goes on through a frame in which nothing had cut it goes on in the next one. -/
theorem going_succ (quiet : Nat) {left : Option Nat} {s : Sources} (hplace : place acts dt m start r = some here)
    (hpoll : (states acts dt m r).polls[here]? = some poll) (hkept : poll.kept.isSome)
    (hleft : left = leftAfter run.phase (m.clock.framesFor run.phase.props.timeout) r)
    (hunderway : run.Underway E F ends ended (quiet - (r + 1)) (left.bind Nat.ppred)
      (((states acts dt m r).polls.take here).filterMap Machine.Poll.kept).length rest layers (states acts dt m r).tick)
    (hlive : ¬ run.joint.isCancelled s) (hknown : run.source < s.states.length)
    (hagrees : run.joint.Agrees (run.timed left s) (states acts dt m r).tick.sources)
    (hcut : ¬ run.CutBy acts dt m r) :
    ∃ here', run.Going acts dt m start E F ends ended quiet (r + 1) rest layers here' := by
  subst hleft
  obtain ⟨hnext, hcancelled, hexpired⟩ := hunderway.next hlive hknown hagrees (acts (r + 1))
  rw [leftAfter_succ] at hnext
  refine ⟨_, place_succ hplace hpoll hkept, hnext, hcancelled.trans (cut_succ hcut).symm, ?_⟩
  rw [Nat.add_right_cancel_iff]
  exact hexpired.trans leftAfter_eq_zero_iff

/-- The frame in which a phase starts. If its children are over in it, its end is written down. If not, the phase
goes on, and so it does in the next frame if it keeps its place. -/
theorem AmongBystanders.first (h : AmongBystanders acts dt E F phase index T m done a after p q layers quiet) :
    let run := opened phase index T q
    let ends := (phase.timeline F m.clock.frame).ends
    let ended := q.shared.campaign.completions
    (ends = some m.clock.frame →
      ended ++ [run.completion .cleared m.clock.frame] <+: m.tick.shared.campaign.completions) ∧
    (ends ≠ some m.clock.frame → 0 < quiet → ∃ rest t,
      (startTurn phase index T layers q).result = (.waiting (run.part rest), t) ∧ t.Goes E F run.joint ∧
      ∀ layers' s, Layer.trailAll layers t = some (layers', s) →
        ∃ here, Stays (startTurn phase index T layers q) run acts dt m done.length E F ends ended quiet 0 rest layers'
          here) := by
  intro run ends ended
  obtain ⟨entered, hopen, hentered, hsources, hothers, hheld, hcompletions⟩ := h.exists_open
  have hjoint : ¬ run.joint.isCancelled entered.sources := hsources ▸ joint_live h.live
  have hright : F.Right E entered := by
    have := h.right
    rwa [hopen] at this
  have hstart : (phase.start index T : Step (World.M Activity)).run q = _ := run_start h.live
  rw [hopen] at hstart
  dsimp only at hstart
  have hgoes : entered.Goes E F run.joint := ⟨hjoint, hright⟩
  have hframe : entered.clock.frame = m.clock.frame := congrArg FrameClock.frame hentered
  obtain ⟨hdoes, hleads⟩ := realizes_begin h.plain entered hgoes hframe
  obtain ⟨hover, hgoing⟩ := settle_followedBy (advances_startOption phase.atEnd T) hframe hdoes hleads
  refine ⟨fun hends => ?_, fun hends hquiet => ?_⟩
  · -- The end is written down in the turn of the phase, and what follows in the frame only adds.
    have hwritten := hover hends
    have hadds := h.enters.run.2.2
    rw [hcompletions] at hwritten
    rw [hstart] at hadds
    exact (hwritten.trans hadds.completions).trans h.round.completions_turn
  · obtain ⟨k, rfl⟩ : ∃ k, quiet = k + 1 := Nat.exists_eq_succ_of_ne_zero (Nat.ne_of_gt hquiet)
    -- What is left of the children is left of the phase, and it is in the frame before the next turn of its task.
    obtain ⟨rest, hrest, hplain, hrestEnds⟩ := hgoing hends
    have hresult : (startTurn phase index T layers q).result =
        (.waiting (run.part rest), (run.begin.run entered).2) := by
      rw [PartTurn.result, startTurn, hstart, hrest]
      rfl
    refine ⟨rest, _, hresult, hgoes.does hdoes, fun layers' s htrail => ?_⟩
    obtain ⟨new, hnew, hnewPlain⟩ := hdoes.spawned
    have hothers' : run.Others (k + 1) (leftAfter phase (m.clock.framesFor phase.props.timeout) 0)
        (after ++ (run.begin.run entered).2.spawned) := by
      rw [hnew, ← List.append_assoc]
      exact hothers.append fun b hb => .apart (hnewPlain b hb).apart
    obtain ⟨hpoll, hkept, hunderway, hagrees⟩ := underway_of_turn h.round h.enters hresult htrail h.earlier hothers'
      h.beside (fun _ => hdoes.sources ▸ hjoint) (Does.held hheld hdoes)
      ((congrArg Campaign.completions hdoes.campaign).trans hcompletions) hplain hrestEnds
    obtain ⟨here, hgoing⟩ := going_succ (k + 1) rfl hpoll hkept rfl hunderway (hdoes.sources ▸ hjoint)
      ((Does.held hheld hdoes).known _ run.source_mem_joint) hagrees cutBy_zero
    exact ⟨here, ⟨_, s, rfl, congrArg Prod.fst hresult, hresult ▸ htrail⟩, hgoing⟩

section

variable {first : PartTurn} (h : Stays first run acts dt m start E F ends ended quiet r rest layers here)

include h

/-- Its task has a turn in the next frame. -/
theorem Stays.exists_follow : ∃ poll, (states acts dt m (r + 1)).polls[here]? = some poll ∧
    follow acts dt m start (r + 1) = some poll ∧ (states acts dt m (r + 1)).Spares run.joint poll.before := by
  obtain ⟨poll, hpoll, hspares⟩ := h.going.underway.exists_poll
  exact ⟨poll, hpoll, by rw [follow, h.going.place]; exact hpoll, hspares⟩

/-- That turn comes to the phase if it keeps its place. -/
theorem Stays.exists_turn (hkeeps : ¬ first.LosesPlace acts dt m start r) :
    ∃ poll layers' q, (states acts dt m (r + 1)).polls[here]? = some poll ∧
      Layer.leadAll layers poll.before = some (layers', q) := by
  obtain ⟨t, s, ht, hwaiting, htrail⟩ := h.waits
  obtain ⟨poll, hpoll, hfollow, -⟩ := h.exists_follow
  obtain ⟨layers', q, hlead⟩ := PartTurn.exists_leadAll hkeeps ht hwaiting htrail hfollow
  exact ⟨poll, layers', q, hpoll, hlead⟩

/-- The phase keeps its place if all that stands before it goes on in the next frame. -/
theorem Stays.turns_succ (hpoll : (states acts dt m (r + 1)).polls[here]? = some poll)
    (hlead : Layer.leadAll layers poll.before = some (layers', q)) :
    first.turns acts dt m start (r + 1) = some ⟨(run.part rest).turn, layers', q⟩ ∧
      ¬ first.LosesPlace acts dt m start r := by
  obtain ⟨t, s, ht, hwaiting, htrail⟩ := h.waits
  have hfollow : follow acts dt m start (r + 1) = some poll := by
    rw [follow, h.going.place]
    exact hpoll
  exact ⟨PartTurn.turns_succ ht hwaiting htrail hfollow hlead, PartTurn.not_losesPlace ht htrail hfollow hlead⟩

/-- If nothing cuts the phase in the next frame, and its children are not over in it, then it goes on after it. -/
theorem Stays.succ (hquiet : r + 1 < quiet) (hpoll : (states acts dt m (r + 1)).polls[here]? = some poll)
    (hlead : Layer.leadAll layers poll.before = some (layers', q)) (hright : F.Right E q)
    (hends : ends ≠ some (m.clock.frame + (r + 1))) (hcut : ¬ run.Cut acts dt m (r + 1)) :
    ∃ next t, (run.part rest).step q = (.waiting (run.part next), t) ∧ t.Goes E F run.joint ∧
      ∀ layers'' s, Layer.trailAll layers' t = some (layers'', s) →
        ∃ here', Stays first run acts dt m start E F ends ended quiet (r + 1) next layers'' here' := by
  obtain ⟨hturns, -⟩ := h.turns_succ hpoll hlead
  obtain ⟨hplace, hunderway, hcancelled, -⟩ := h.going
  have hlive : ¬ run.joint.isCancelled (states acts dt m (r + 1)).sources := fun hc => hcut (hcancelled.1 hc)
  have hsucc : quiet - (r + 1) = quiet - (r + 1 + 1) + 1 := by omega
  rw [hsucc] at hunderway
  obtain ⟨next, t, hturn, hgoes, hnext⟩ :=
    hunderway.goes_on hpoll hlead hlive hright (by rw [states_clock]; exact hends)
  refine ⟨next, t, hturn, hgoes, fun layers'' s htrail => ?_⟩
  obtain ⟨hkept, hunderway', hagrees⟩ := hnext htrail
  obtain ⟨here', hgoing⟩ := going_succ quiet hplace hpoll hkept rfl hunderway' hlive
    (hunderway.held.known _ run.source_mem_joint) hagrees fun hby => hcut (.inl hby)
  refine ⟨here', ⟨_, s, hturns, congrArg Prod.fst hturn, ?_⟩, hgoing⟩
  change Layer.trailAll layers' ((run.part rest).step q).2 = _
  rw [hturn]
  exact htrail

/-- Plain parts that stand before the phase go on in the next frame as long as their token is live. -/
theorem Stays.exists_leadAll {T : CancelToken} (hT : run.joint.Includes T)
    (hplain : ∀ layer ∈ layers, layer.Plain E F T)
    (hright : ∀ poll, follow acts dt m start (r + 1) = some poll → F.Right E poll.before)
    (hlive : ¬ T.isCancelled (states acts dt m (r + 1)).sources ∨ ∀ layer ∈ layers, layer.First) :
    ∃ poll layers' q, (states acts dt m (r + 1)).polls[here]? = some poll ∧
      Layer.leadAll layers poll.before = some (layers', q) ∧ (∀ layer ∈ layers', layer.Plain E F T) ∧
      ((∀ layer ∈ layers, layer.First) → ∀ layer ∈ layers', layer.First) := by
  obtain ⟨poll, hpoll, hfollow, hspares⟩ := h.exists_follow
  have hfirst : (∀ layer ∈ layers, layer.First) → Layer.leadAll layers poll.before = some (layers, poll.before) :=
    Layer.leadAll_of_first
  rcases hlive with hlive | hnothing
  · have hagrees : T.Agrees (states acts dt m (r + 1)).sources poll.before.sources := fun source hsource =>
      hspares.sources source (hT source hsource)
    have hgoes : Machine.Goes E F T poll.before := ⟨by rw [hagrees.isCancelled]; exact hlive, hright poll hfollow⟩
    obtain ⟨layers', q, hlead, -, hplain'⟩ := Layer.leadAll_of_plain hplain hgoes
    refine ⟨poll, layers', q, hpoll, hlead, hplain', fun hnothing => ?_⟩
    obtain ⟨rfl, -⟩ := Prod.mk.inj (Option.some.inj ((hfirst hnothing).symm.trans hlead))
    exact hnothing
  · exact ⟨poll, layers, poll.before, hpoll, hfirst hnothing, hplain, id⟩

end

namespace AmongBystanders

variable (h : AmongBystanders acts dt E F phase index T m done a after p q layers quiet)
  (hquiet : r < quiet) (hends : ∀ j ≤ r, (phase.timeline F m.clock.frame).ends ≠ some (m.clock.frame + j))
  (hcut : ∀ j ≤ r, 0 < j → ¬ (opened phase index T q).Cut acts dt m j)

include h hquiet hends hcut

/-- A phase goes on as long as its children are not over, nothing cuts it, and it keeps its place. -/
theorem stays (hkeeps : ∀ j ≤ r, ¬ (startTurn phase index T layers q).LosesPlace acts dt m done.length j) :
    ∃ rest layers' here, Stays (startTurn phase index T layers q) (opened phase index T q) acts dt m done.length E F
      (phase.timeline F m.clock.frame).ends q.shared.campaign.completions quiet r rest layers' here := by
  induction r with
  | zero =>
    obtain ⟨rest, t, hresult, -, hstays⟩ := h.first.2 (hends 0 (Nat.le_refl 0)) hquiet
    obtain ⟨layers', s, htrail⟩ :=
      PartTurn.exists_trailAll (hkeeps 0 (Nat.le_refl 0)) rfl (congrArg Prod.fst hresult)
    rw [hresult] at htrail
    obtain ⟨here, hstays⟩ := hstays layers' s htrail
    exact ⟨rest, layers', here, hstays⟩
  | succ r ih =>
    obtain ⟨rest, layers', here, hstays⟩ := ih (Nat.lt_of_succ_lt hquiet) (fun j hj => hends j (Nat.le_succ_of_le hj))
      (fun j hj => hcut j (Nat.le_succ_of_le hj)) fun j hj => hkeeps j (Nat.le_succ_of_le hj)
    obtain ⟨poll, layers'', q', hpoll, hlead⟩ := hstays.exists_turn (hkeeps r (Nat.le_succ r))
    obtain ⟨hturns, -⟩ := hstays.turns_succ hpoll hlead
    obtain ⟨next, t, hresult, -, hnext⟩ := hstays.succ hquiet hpoll hlead (h.right_later r _ hturns)
      (hends _ (Nat.le_refl _)) (hcut _ (Nat.le_refl _) (Nat.succ_pos r))
    obtain ⟨layers₁, s, htrail⟩ :=
      PartTurn.exists_trailAll (hkeeps _ (Nat.le_refl _)) hturns (congrArg Prod.fst hresult)
    change Layer.trailAll layers'' (Activity.step _ q').2 = _ at htrail
    rw [hresult] at htrail
    obtain ⟨here', hstays'⟩ := hnext layers₁ s htrail
    exact ⟨next, layers₁, here', hstays'⟩

variable (hplain : ∀ layer ∈ layers, layer.Plain E F T)
  (hright : ∀ r poll, follow acts dt m done.length (r + 1) = some poll → F.Right E poll.before)

include hplain hright

/-- The same among plain parts. They do not fail while the phase is not cut, since their token is live then. -/
theorem stays_of_plain :
    ∃ rest layers' here, Stays (startTurn phase index T layers q) (opened phase index T q) acts dt m done.length E F
        (phase.timeline F m.clock.frame).ends q.shared.campaign.completions quiet r rest layers' here ∧
      (∀ layer ∈ layers', layer.Plain E F T) ∧
      ((∀ layer ∈ layers, layer.First) → ∀ layer ∈ layers', layer.First) := by
  have hT : (opened phase index T q).joint.Includes T := (opened phase index T q).joint_includes
  have htrails : ∀ {layers' t}, (∀ layer ∈ layers', Layer.Plain E F T layer) →
      Machine.Goes E F (opened phase index T q).joint t → ∃ layers'' s, Layer.trailAll layers' t = some (layers'', s) ∧
        ∀ layer ∈ layers'', layer.Plain E F T := fun hlayers hgoes => by
    obtain ⟨layers'', s, htrail, -, hplain'⟩ :=
      Layer.trailAll_of_plain hlayers ⟨fun hc => hgoes.live (hT.isCancelled hc), hgoes.right⟩
    exact ⟨layers'', s, htrail, hplain'⟩
  induction r with
  | zero =>
    obtain ⟨rest, t, -, hgoes, hstays⟩ := h.first.2 (hends 0 (Nat.le_refl 0)) hquiet
    obtain ⟨layers', s, htrail, hplain'⟩ := htrails hplain hgoes
    obtain ⟨here, hstays⟩ := hstays layers' s htrail
    exact ⟨rest, layers', here, hstays, hplain', fun hfirst => Layer.first_of_trailAll hfirst htrail⟩
  | succ r ih =>
    obtain ⟨rest, layers', here, hstays, hplain', hfirst⟩ := ih (Nat.lt_of_succ_lt hquiet)
      (fun j hj => hends j (Nat.le_succ_of_le hj)) fun j hj => hcut j (Nat.le_succ_of_le hj)
    have hnot := hcut _ (Nat.le_refl _) (Nat.succ_pos r)
    have hlive : ¬ T.isCancelled (states acts dt m (r + 1)).sources := fun hc =>
      hnot (hstays.going.cancelled.1 (hT.isCancelled hc))
    obtain ⟨poll, layers'', q', hpoll, hlead, hplain'', hfirst'⟩ :=
      hstays.exists_leadAll hT hplain' (hright r) (.inl hlive)
    obtain ⟨hturns, -⟩ := hstays.turns_succ hpoll hlead
    obtain ⟨next, t, -, hgoes, hnext⟩ := hstays.succ hquiet hpoll hlead (h.right_later r _ hturns)
      (hends _ (Nat.le_refl _)) hnot
    obtain ⟨layers₁, s, htrail, hplain₁⟩ := htrails hplain'' hgoes
    obtain ⟨here', hstays'⟩ := hnext layers₁ s htrail
    exact ⟨next, layers₁, here', hstays', hplain₁, fun hnothing =>
      Layer.first_of_trailAll (hfirst' (hfirst hnothing)) htrail⟩

/-- Plain parts beside a phase that goes on do not make it lose its place, unless their token is cancelled and some
of them stand before it. -/
theorem keeps_place (hlive : ¬ T.isCancelled (states acts dt m (r + 1)).sources ∨ ∀ layer ∈ layers, layer.First) :
    ¬ (startTurn phase index T layers q).LosesPlace acts dt m done.length r := by
  obtain ⟨rest, layers', here, hstays, hplain', hfirst⟩ := h.stays_of_plain hquiet hends hcut hplain hright
  obtain ⟨poll, layers'', q', hpoll, hlead, -, -⟩ :=
    hstays.exists_leadAll (opened phase index T q).joint_includes hplain' (hright r) (hlive.imp_right hfirst)
  exact (hstays.turns_succ hpoll hlead).2

end AmongBystanders

end PhaseRun

end Barrage
