import Barrage.Proofs.Machine.Journeys
import Barrage.Proofs.Machine.PhaseEnds

/-!
# The books of a pattern

Phases are told of in events when they start and end, and written down by the campaign when they have ended. A phase
installs things that have to be taken back: the source that cuts it, the lenience, and the boss of the pattern. All
this is balanced at every moment of every run: each phase that was entered has ended and is written down, apart from
the one the pattern is in. A pattern can come to its end from many points, and only one of them leaves a phase that
was told of and never ended, namely children that fail.

## Main definitions

* `PatternRun.Books`: what was told, written down and installed at a moment

## Main results

* `PatternRun.Goes.books`: a leap keeps the books
* `pattern_keeps_books`: what is told, written down and installed when a pattern is over
-/

namespace Barrage

open Machine

/-! ### What is told -/

/-- What is told of a phase that was written down: its start and its end. -/
def Completion.told (c : Completion) : List Event := [.phaseStarted c.index c.title, .phaseEnded c.index c.cause]

/-- The starts and ends of phases that are told in the first frames of a run. -/
def Machine.told (acts : Nat → List Outside) (dt : Float) (m : Machine) (frames : Nat) : List Event :=
  (List.range frames).flatMap fun n => (states acts dt m n).tick.phaseEvents

theorem Machine.told_succ (acts : Nat → List Outside) (dt : Float) (m : Machine) (n : Nat) :
    told acts dt m (n + 1) = told acts dt m n ++ (states acts dt m n).tick.phaseEvents := by
  rw [told, List.range_succ, List.flatMap_append, List.flatMap_singleton]
  rfl

theorem EventQueue.filter_push (q : EventQueue) (e : Event) (he : e.isOfPhase) :
    (q.push e).events.filter Event.isOfPhase = q.events.filter Event.isOfPhase ++ [e] := by
  rw [push, List.filter_append, List.filter_cons_of_pos he, List.filter_nil]

/-- There is nothing to be cut if no phase is known. -/
theorem World.shiftPhase_of_none {p : Machine} (h : p.shared.executor.shifter = none) :
    (World.shiftPhase.run p).1 = false := by
  have hget : (get : World.M Activity Machine).run p = (p, p) := rfl
  have hcancel : (World.cancelPhase : World.M Activity Bool).run p = (false, p) := by
    rw [World.cancelPhase, run_look hget, h]
    rfl
  unfold World.shiftPhase
  rw [run_then hcancel]
  rfl

namespace PatternRun

variable {run : PatternRun} {m p q : Machine} {point : run.Point} {ended : List Completion} {log : List Event}

/-! ### The books -/

/-- What is told when a phase is entered. -/
def Entry.told (entry : run.Entry) : Event := .phaseStarted entry.place entry.phase.props.title

namespace Point

/-- The phase that the pattern is in, with what it installed. -/
def inside? : run.Point → Option run.Entry
  | .begin entry => some entry
  | .stay (.inside entry _) => some entry
  | .settle entry _ => some entry
  | _ => none

/-- The phase that failed, at the end of the pattern. -/
def failed? : run.Point → Option run.Entry
  | .ended _ failed => failed
  | _ => none

/-- The keys of the bosses that were opened. -/
def raised : run.Point → List String
  | .start => []
  | _ => run.props.boss.toList.map Boss.key

end Point

/-- The books of a run in which a pattern has come to some point: what was told of phases from the beginning, what was
written down meanwhile, and what is installed. -/
structure Books (m : Machine) (log : List Event) (ended : List Completion) (point : run.Point) (p : Machine) : Prop where
  told : log = m.phaseEvents ++ ended.flatMap Completion.told ++
    (point.inside?.toList ++ point.failed?.toList).map Entry.told
  completions : p.shared.campaign.completions = m.shared.campaign.completions ++ ended
  shifter : m.shared.executor.shifter = none → p.shared.executor.shifter = point.inside?.map Entry.source
  lenient : m.shared.campaign.lenient = false →
    p.shared.campaign.lenient = point.inside?.any fun entry => entry.phase.props.lenient
  opened : p.shared.campaign.opened = m.shared.campaign.opened ++ point.raised
  closed : p.shared.campaign.closed = m.shared.campaign.closed

/-- The same when the pattern is over. -/
structure Balanced (m : Machine) (log : List Event) (ended : List Completion) (failed : Option run.Entry) (p : Machine) :
    Prop where
  told : log = m.phaseEvents ++ ended.flatMap Completion.told ++ failed.toList.map Entry.told
  completions : p.shared.campaign.completions = m.shared.campaign.completions ++ ended
  shifter : m.shared.executor.shifter = none → p.shared.executor.shifter = none
  lenient : m.shared.campaign.lenient = false → p.shared.campaign.lenient = false
  opened : p.shared.campaign.opened = m.shared.campaign.opened ++ run.props.boss.toList.map Boss.key
  closed : p.shared.campaign.closed = m.shared.campaign.closed ++ run.props.boss.toList.map Boss.key

/-- A part of a run in which nothing is told, written down and installed. -/
theorem Books.keep (h : Books m log ended point p) {next : run.Point} (hcampaign : q.shared.campaign = p.shared.campaign)
    (hshifter : q.shared.executor.shifter = p.shared.executor.shifter) (hinside : next.inside? = point.inside?)
    (hfailed : next.failed? = point.failed?) (hraised : next.raised = point.raised) : Books m log ended next q where
  told := by rw [hinside, hfailed, h.told]
  completions := by rw [hcampaign, h.completions]
  shifter := fun hm => by rw [hshifter, hinside, h.shifter hm]
  lenient := fun hlenient => by rw [hcampaign, hinside, h.lenient hlenient]
  opened := by rw [hcampaign, hraised, h.opened]
  closed := by rw [hcampaign, h.closed]

variable {before : List Event} {next : run.Leap}

theorem Books.quiet (h : Books m (before ++ p.phaseEvents) ended point p) (hquiet : Quiet p q) {next : run.Point}
    (hinside : next.inside? = point.inside?) (hfailed : next.failed? = point.failed?) (hraised : next.raised = point.raised) :
    Books m (before ++ q.phaseEvents) ended next q := by
  rw [hquiet.spares.phaseEvents]
  exact h.keep hquiet.spares.campaign hquiet.spares.shifter hinside hfailed hraised

/-- The boss of a pattern is opened. -/
theorem books_raise (h : Books m (before ++ p.phaseEvents) ended (.start : run.Point) p) :
    Books m (before ++ (run.raised p).phaseEvents) ended (.look none : run.Point) (run.raised p) := by
  obtain ⟨htold, hcompletions, hshifter, hlenient, hopened, hclosed⟩ := h
  rw [Point.raised, List.append_nil] at hopened
  have hraised : ∃ opened, run.raised p = { p with shared := { p.shared with campaign :=
      { p.shared.campaign with opened } } } ∧ opened = m.shared.campaign.opened ++ run.props.boss.toList.map Boss.key := by
    rw [PatternRun.raised, ← hopened]
    cases run.props.boss with
    | none => exact ⟨_, rfl, by simp⟩
    | some boss => exact ⟨_, rfl, rfl⟩
  obtain ⟨opened, hq, hkeys⟩ := hraised
  rw [hq]
  exact ⟨htold, hcompletions, hshifter, hlenient, hkeys, hclosed⟩

/-- A phase is entered. -/
theorem Books.enter {place : Fin run.phases.length} (h : Books m (before ++ p.phaseEvents) ended (.enter place) p)
    (hosts : Hosts) (services : Services) :
    let q : Machine := (run.entered place p).phaseRun.afterOpen hosts services p
    Books m (before ++ q.phaseEvents) ended (.begin (run.entered place p)) q := by
  obtain ⟨htold, hcompletions, hshifter, hlenient, hopened, hclosed⟩ := h
  intro q
  have hevents : q.phaseEvents = p.phaseEvents ++ [(run.entered place p).told] :=
    EventQueue.filter_push p.shared.executor.events _ rfl
  refine ⟨?_, hcompletions, fun _ => rfl, fun hm => ?_, hopened, hclosed⟩
  · rw [hevents, ← List.append_assoc, htold]
    simp [Point.inside?, Point.failed?]
  · change ((run.entered place p).phase.props.lenient || p.shared.campaign.lenient) = _
    rw [hlenient hm]
    simp [Point.inside?]

/-- A phase is settled whose children failed. -/
theorem Books.fail {entry : run.Entry} {answer : Except MachineError Unit}
    (h : Books m (before ++ p.phaseEvents) ended (.settle entry answer) p) (e : MachineError) :
    let q : Machine :=
      { p with sources := p.sources.cancel entry.source, shared := entry.phaseRun.forgotten p.shared }
    Books m (before ++ q.phaseEvents) ended (.ended (.error e) (some entry)) q := by
  obtain ⟨htold, hcompletions, hshifter, hlenient, hopened, hclosed⟩ := h
  dsimp only
  rw [PhaseRun.forgotten_eq]
  refine ⟨htold, hcompletions, fun _ => rfl, fun hm => ?_, hopened, hclosed⟩
  change (!entry.phase.props.lenient && p.shared.campaign.lenient) = false
  rw [hlenient hm]
  simp [Point.inside?]

/-- A phase is settled that has a cause. -/
theorem Books.settle {entry : run.Entry} {answer : Except MachineError Unit}
    (h : Books m (before ++ p.phaseEvents) ended (.settle entry answer) p) (cause : ClearCause) (services : Services) :
    let q : Machine := entry.phaseRun.afterConclude cause services p
    Books m (before ++ q.phaseEvents) (ended ++ [entry.phaseRun.completion cause p.clock.frame])
      (ifLive q.sources (.block entry)) q := by
  obtain ⟨htold, hcompletions, hshifter, hlenient, hopened, hclosed⟩ := h
  intro q
  have hevents : q.phaseEvents = p.phaseEvents ++ [.phaseEnded entry.place cause] :=
    EventQueue.filter_push p.shared.executor.events _ rfl
  have hblock : Books m (before ++ q.phaseEvents) (ended ++ [entry.phaseRun.completion cause p.clock.frame])
      (.block entry) q := by
    refine ⟨?_, ?_, fun _ => rfl, fun hm => ?_, hopened, hclosed⟩
    · rw [hevents, ← List.append_assoc, htold]
      simp [Point.inside?, Point.failed?, Completion.told, PhaseRun.completion, Entry.told, Entry.phaseRun]
    · change p.shared.campaign.completions ++ [_] = _
      rw [hcompletions, List.append_assoc]
    · change (!entry.phase.props.lenient && p.shared.campaign.lenient) = false
      rw [hlenient hm]
      simp [Point.inside?]
  unfold ifLive
  split
  · exact hblock.keep rfl rfl rfl rfl rfl
  · exact hblock

/-- A leap keeps the books. -/
theorem Goes.books {there : run.Point} (h : Books m (before ++ p.phaseEvents) ended point p) (hgoes : Goes point p next q)
    (hthere : next.point? = some there) : ∃ ended, Books m (before ++ q.phaseEvents) ended there q := by
  cases hgoes with
  | raise =>
    cases hthere
    exact ⟨ended, books_raise h⟩
  | stop | skip | visit | buffered | buffer =>
    cases hthere
    exact ⟨ended, h.keep rfl rfl rfl rfl rfl⟩
  | cancel hpoint =>
    cases hthere
    cases hpoint <;> exact ⟨ended, h.keep rfl rfl rfl rfl rfl⟩
  | enter _ hosts services =>
    cases hthere
    exact ⟨ended, h.enter hosts services⟩
  | children hpoint hquiet | inside hpoint hquiet | ending hpoint hquiet =>
    cases hthere
    cases hpoint <;> exact ⟨ended, h.quiet hquiet rfl rfl rfl⟩
  | @fail entry answer e =>
    cases hthere
    exact ⟨ended, h.fail e⟩
  | @settle entry answer cause _ _ _ services hq _ hon =>
    -- The only leap in which a phase is written down.
    cases hthere
    subst hq hon
    exact ⟨_, h.settle cause services⟩
  | @block _ _ _ _ hpoint hquiet answer _ hon =>
    cases hthere
    subst hon
    cases hpoint <;> cases answer <;> exact ⟨ended, h.quiet hquiet rfl rfl rfl⟩
  | lower => cases hthere

/-- The boss of a pattern is closed, and the books are balanced. -/
theorem Books.lower {answer : Except MachineError Unit} {failed : Option run.Entry}
    (h : Books m (before ++ p.phaseEvents) ended (.ended answer failed) p) :
    Balanced m (before ++ (run.lowered p).phaseEvents) ended failed (run.lowered p) := by
  obtain ⟨htold, hcompletions, hshifter, hlenient, hopened, hclosed⟩ := h
  have hlowered : ∃ closed services, run.lowered p = { p with shared := { p.shared with
      campaign := { p.shared.campaign with closed }, services } } ∧
      closed = m.shared.campaign.closed ++ run.props.boss.toList.map Boss.key := by
    rw [lowered, ← hclosed]
    cases run.props.boss with
    | none => exact ⟨_, _, rfl, by simp⟩
    | some boss => exact ⟨_, _, rfl, rfl⟩
  obtain ⟨closed, services, hq, hkeys⟩ := hlowered
  rw [hq]
  exact ⟨htold, hcompletions, hshifter, hlenient, hopened, hkeys⟩

/-! ### Over a whole run -/

variable {acts : Nat → List Outside} {dt : Float} {start n : Nat} {passed : List run.Moment} {c : run.Moment}

/-- The books are kept at every moment of a run. -/
theorem Travels.books (hflat : run.Flat) (h : Travels run acts dt m start n passed c) :
    ∃ ended, Books m (told acts dt m n ++ c.before.phaseEvents) ended c.point c.before := by
  induction h with
  | start _ hspares =>
    refine ⟨[], ?_, ?_, fun hm => ?_, fun hm => ?_, ?_, ?_⟩
    · rw [hspares.phaseEvents]
      simp [told, Point.inside?, Point.failed?]
    · rw [hspares.completions, List.append_nil]
    · rw [hspares.shifter, hm]
      rfl
    · rw [hspares.campaign, hm]
      rfl
    · rw [hspares.campaign]
      exact (List.append_nil _).symm
    · rw [hspares.campaign]
  | @on n passed c point h hnext ih =>
    obtain ⟨ended, hbooks⟩ := ih
    exact (c.goes hflat (h.fits hflat)).books hbooks (by rw [hnext]; rfl)
  | @rest n passed c stay poll h hnext hends _ hbetween ih =>
    obtain ⟨ended, hbooks⟩ := ih
    have hstay : c.next.point? = some (.stay stay) := by
      rw [hnext]
      rfl
    obtain ⟨ended, hbooks'⟩ := (c.goes hflat (h.fits hflat)).books hbooks hstay
    refine ⟨ended, ?_⟩
    rw [told_succ, hends.phaseEvents, hbetween.phaseEvents, List.append_nil]
    exact hbooks'.keep hbetween.steers.campaign (by rw [hbetween.steers.executor]) rfl rfl rfl

/-- A pattern ends with a failure exactly if the children of a phase fail, and that phase is the last one. -/
theorem Arrives.failed_iff (hflat : run.Flat) {poll : Machine.Poll} {answer : Except MachineError Unit}
    {failed : Option run.Entry} (h : Arrives run acts dt m start n poll passed ⟨.ended answer failed, p⟩)
    (entry : run.Entry) : failed = some entry ↔
      ∃ e q, ⟨.settle entry (.error e), q⟩ ∈ passed ∧ e.isCancellation = false ∧ answer = .error e := by
  constructor
  · rintro rfl
    rcases h.travels.before rfl with ⟨hstart, -⟩ | ⟨front, last, rfl, ⟨hon, -⟩ | ⟨_, -, hstay⟩⟩
    · cases hstart
    · have hgoes := h.travels.goes_of_mem hflat (d := last) (by simp)
      rw [hon] at hgoes
      obtain ⟨e, hsettle, he, hanswer⟩ := hgoes.to_failed
      refine ⟨e, last.before, List.mem_append_right _ ?_, he, hanswer⟩
      rw [← hsettle]
      exact List.mem_singleton_self last
    · cases hstay
  · rintro ⟨e, q, hmem, he, rfl⟩
    obtain ⟨front, rest, rfl⟩ := List.append_of_mem hmem
    obtain ⟨next, hnext, hpoint⟩ := h.after_failed hflat (List.append_assoc front (_ :: rest) _) rfl he
    obtain ⟨-, hlast⟩ := List.append_inj' (hnext.trans (List.nil_append _).symm) rfl
    rw [← (List.cons.inj hlast).1] at hpoint
    cases hpoint
    rfl

end PatternRun

open PatternRun in
/-- The books of a pattern when it is over, whatever others did meanwhile. Every phase that was told of has been told
to end, right after its start, and was written down, in this order; but for the one whose children failed, if that is
how the pattern ended, and this one is the last. No phase can be cut any more, lenience is off unless it was on before,
and the boss was opened once and closed once, if there is one. -/
theorem pattern_keeps_books {run : PatternRun} {acts : Nat → List Outside} {dt : Float} {m : Machine} {start n : Nat}
    {task : Activity} {poll : Machine.Poll} {answer : Except MachineError Unit} (hflat : run.Flat)
    (hcompany : m.Company task start) (htask : (Node.pattern run.props run.phases).IsTask run.token task)
    (hfollow : follow acts dt m start n = some poll) (hdone : (poll.task.step poll.before).1 = .done answer) :
    ∃ (passed : List run.Moment) (p : Machine) (ended : List Completion) (failed : Option run.Entry),
      Arrives run acts dt m start n poll passed ⟨.ended answer failed, p⟩ ∧
      Balanced m (told acts dt m (n + 1)) ended failed poll.after ∧
      (m.shared.executor.shifter = none → (World.shiftPhase.run poll.after).1 = false) ∧
      ∀ entry, failed = some entry ↔
        ∃ e q, ⟨.settle entry (.error e), q⟩ ∈ passed ∧ e.isCancellation = false ∧ answer = .error e := by
  obtain ⟨passed, ⟨point, p⟩, harrives⟩ := arrives hflat hcompany htask hfollow
  obtain ⟨failed, hpoint, hlowered⟩ := harrives.is_done hflat hdone
  obtain rfl : point = .ended answer failed := hpoint
  have htravels := harrives.travels
  obtain ⟨ended, hbooks⟩ := htravels.books hflat
  obtain ⟨outcome, hafter⟩ := harrives.after
  have hbalanced := hbooks.lower
  rw [← hlowered, ← harrives.ends.phaseEvents, ← told_succ] at hbalanced
  refine ⟨passed, p, ended, failed, harrives, ?_, fun hm => World.shiftPhase_of_none ?_, harrives.failed_iff hflat⟩
  · rw [hafter]
    exact { hbalanced with }
  · rw [hafter]
    exact hbalanced.shifter hm

/-- A phase whose only child has an expression of the wrong type. -/
def failingPhase : Phase Callable := .mk {} [.leaf (.wait (constantly (.bool true)))] none none

theorem failingPhase_flat : failingPhase.Flat where
  children := by
    intro child hchild
    rw [List.mem_singleton.1 hchild]
    exact .leaf (by simp)
  atEnd := by simp [failingPhase, Phase.atEnd]
  atCut := by simp [failingPhase, Phase.atCut]

theorem pausingPhase_flat (timeout seconds : Float) : (pausingPhase timeout seconds).Flat where
  children := by
    intro child hchild
    rw [List.mem_singleton.1 hchild]
    exact .leaf (by simp)
  atEnd := by simp [pausingPhase, Phase.atEnd]
  atCut := by simp [pausingPhase, Phase.atCut]

/-- A pattern of two phases with a boss, of which the second one fails. -/
def failingPattern : PatternRun := ⟨{ boss := some { key := "a" } }, [pausingPhase 0.0 0.1, failingPhase], .none⟩

theorem failingPattern_flat : failingPattern.Flat := by
  intro phase hphase
  rcases List.mem_cons.1 hphase with rfl | hphase
  · exact pausingPhase_flat 0.0 0.1
  · rw [List.mem_singleton.1 hphase]
    exact failingPhase_flat

/-- Only the first of two phases is written down if the second one fails, and what was told of the second one is left
as it is. -/
theorem pattern_keeps_books_failing :
    let m := soleTree (.pattern failingPattern.props failingPattern.phases)
    ∃ poll entry, follow (fun _ => []) 0.1 m 0 5 = some poll ∧
      failingPattern.Balanced m (told (fun _ => []) 0.1 m 6) [⟨0, none, none, .cleared, 1⟩] (some entry) poll.after := by
  intro m
  have hanswer : answer? (fun _ => []) 0.1 m 0 5 = some (.error (.leafType "wait" "true" .float)) := by decide +kernel
  have hwritten : (follow (fun _ => []) 0.1 m 0 5).map (·.after.shared.campaign.completions) =
      some [⟨0, none, none, .cleared, 1⟩] := by decide +kernel
  have htold : (told (fun _ => []) 0.1 m 6).length = 3 := by decide +kernel
  obtain ⟨poll, hpoll, hdone⟩ := follow_of_answer? hanswer
  obtain ⟨-, -, ended, failed, -, hbalanced, -⟩ :=
    pattern_keeps_books failingPattern_flat (company_soleTree _) (.inr rfl) hpoll hdone
  rw [hpoll] at hwritten
  obtain rfl : ended = [⟨0, none, none, .cleared, 1⟩] := by
    exact hbalanced.completions.symm.trans (Option.some.inj hwritten)
  cases failed with
  | none =>
    -- Three starts and ends were told, and the one phase that ended accounts for two.
    rw [hbalanced.told] at htold
    cases htold
  | some entry => exact ⟨poll, entry, hpoll, hbalanced⟩

end Barrage
