import Barrage.Proofs.Machine.TimedFrames
import Barrage.Proofs.Project.LoadedScripts

/-!
# Timers of a whole run

A run plays its patterns one after another, over the same host objects: timers keep what they stood at when a pattern
is over, and the next one finds them so. Clock, sources and tasks are new for each pattern, though, and so is the task
that advances the timers. So what a pattern reads of a timer does not depend on those before it, once it has entered a
phase: the frames since that entry decide it, and every frame adds its length once.

## Main definitions

* `Project.stages`: the runs of the patterns that are played one after another

## Main results

* `Project.completions_of_playAll`: these are the runs that are played
* `Project.timers_count_from_phase_entry`: what timers stand at whenever an expression is evaluated
-/

namespace Barrage

namespace Hosts

variable {hosts later : Hosts} {name : String}

theorem timerSlot?_eq (hosts : Hosts) (name : String) :
    hosts.timerSlot? name = hosts.timerNames.findIdx? (· == name) := by
  rw [timerNames, List.findIdx?_map]
  rfl

/-- A timer that is there stands at what all timers stand at. -/
theorem Stand.elapsed_timerOf {frameTime : Float} {frames slot : Nat} (h : hosts.Stand frameTime frames)
    (hslot : hosts.timerSlot? name = some slot) :
    (hosts.timerOf ⟨slot, name⟩).elapsed = elapsedAfter frameTime frames := by
  obtain ⟨hlt, -, -⟩ := List.findIdx?_eq_some_iff_getElem.1 hslot
  have htimer : hosts.timerOf ⟨slot, name⟩ = hosts.timers[slot] := by
    rw [timerOf, List.getD_eq_getElem?_getD, List.getElem?_eq_getElem hlt, Option.getD_some]
  rw [htimer]
  exact (h _ (List.getElem_mem hlt)).2

end Hosts

namespace Project

open BuildM Machine

variable {settings : Settings} {boss : EntityHandle} {hosts later : Hosts} {pattern : Pattern Callable}
  {patterns : List (String × Pattern Callable)} {completions : List Completion}

/-- The runs of patterns that are played one after another, each before its first frame and over the host objects that
the one before left behind. A run that fails is the last one. -/
def stages (settings : Settings) (boss : EntityHandle) : Hosts → List (String × Pattern Callable) → List Machine
  | _, [] => []
  | hosts, (_, pattern) :: rest =>
    stage settings boss hosts pattern ::
      (play settings boss hosts pattern).toOption.elim [] fun played => stages settings boss played.2 rest

/-- A pattern that was played: what its run comes to. -/
theorem runToEnd_of_play (h : play settings boss hosts pattern = .ok (completions, later)) :
    ((stage settings boss hosts pattern).runToEnd settings.maxFrames).2.shared.campaign.completions = completions ∧
      ((stage settings boss hosts pattern).runToEnd settings.maxFrames).2.shared.hosts = later := by
  unfold play at h
  split at h
  · cases h
  · cases h
  · rename_i m hrun
    cases h
    rw [hrun]
    exact ⟨rfl, rfl⟩

/-- Patterns are played one after another, each over the host objects that the one before left behind. -/
theorem playAll_cons_iff {path : String} : playAll settings boss hosts ((path, pattern) :: patterns) = .ok completions ↔
    ∃ own later others, play settings boss hosts pattern = .ok (own, later) ∧
      playAll settings boss later patterns = .ok others ∧ completions = own ++ others := by
  rw [playAll, Except.bind_eq_ok_iff]
  constructor
  · rintro ⟨⟨own, later⟩, hplay, hrest⟩
    obtain ⟨others, hothers, hresult⟩ := Except.bind_eq_ok_iff.1 hrest
    cases hresult
    exact ⟨own, later, others, Except.mapError_eq_ok_iff.1 hplay, hothers, rfl⟩
  · rintro ⟨own, later, others, hplay, hothers, rfl⟩
    exact ⟨(own, later), Except.mapError_eq_ok_iff.2 hplay, Except.bind_eq_ok_iff.2 ⟨others, hothers, rfl⟩⟩

/-- If all patterns are played, these are their runs, and they end with the phases that the whole run tells of. -/
theorem completions_of_playAll (h : playAll settings boss hosts patterns = .ok completions) :
    (stages settings boss hosts patterns).length = patterns.length ∧
      (stages settings boss hosts patterns).flatMap (fun m =>
        (m.runToEnd settings.maxFrames).2.shared.campaign.completions) = completions := by
  induction patterns generalizing hosts completions with
  | nil =>
    cases h
    exact ⟨rfl, rfl⟩
  | cons x rest ih =>
    obtain ⟨path, pattern⟩ := x
    obtain ⟨own, later, others, hplayed, hothers, rfl⟩ := playAll_cons_iff.1 h
    obtain ⟨hlength, hcompletions⟩ := ih hothers
    rw [stages, hplayed]
    refine ⟨congrArg (· + 1) hlength, ?_⟩
    rw [List.flatMap_cons, (runToEnd_of_play hplayed).1]
    exact congrArg (own ++ ·) hcompletions

/-- A pattern of code, before its first frame. -/
theorem inFrame_stage (settings : Settings) (boss : EntityHandle) (hosts : Hosts)
    (h : Coded pattern.toNode.expressions) :
    InFrame ⟨settings.frameTime, hosts.timerNames⟩ 0 []
      [] ((stage settings boss hosts pattern).tasks ++ (stage settings boss hosts pattern).spawned)
      (stage settings boss hosts pattern) := by
  refine .before ⟨⟨rfl, rfl, rfl, nofun, rfl, List.forall_mem_nil _⟩, nofun, timelyRecord_nil _⟩ ?_
  exact List.forall_mem_singleton.2 (.andThen (.start h) trivial)

/-- Every pattern that is played begins with timers of the same names. -/
theorem inFrame_of_mem_stages (hcoded : ∀ x ∈ patterns, Coded x.2.toNode.expressions) {m : Machine}
    (hm : m ∈ stages settings boss hosts patterns) :
    InFrame ⟨settings.frameTime, hosts.timerNames⟩ 0 [] [] (m.tasks ++ m.spawned) m := by
  induction patterns generalizing hosts with
  | nil => cases hm
  | cons x rest ih =>
    obtain ⟨path, pattern⟩ := x
    obtain ⟨hpattern, hrest⟩ := List.forall_mem_cons.1 hcoded
    have hfirst := inFrame_stage settings boss hosts hpattern
    rw [stages] at hm
    rcases List.mem_cons.1 hm with rfl | hm
    · exact hfirst
    cases hplay : play settings boss hosts pattern with
    | error e =>
      rw [hplay] at hm
      cases hm
    | ok played =>
      obtain ⟨completions, later⟩ := played
      rw [hplay] at hm
      have hnames : later.timerNames = hosts.timerNames := by
        rw [← (runToEnd_of_play hplay).2]
        exact hfirst.timerNames_runToEnd settings.maxFrames
      rw [← hnames]
      exact ih hrest hm

theorem mode_of_openSession {disk : Disk} {session : Session} (hmode : settings.buildMode ≠ .serve)
    (h : openSession settings disk = .ok session) : session.mode ≠ .serve := by
  unfold openSession at h
  split at h
  · cases h
    decide
  · cases h
    decide
  · exact absurd ‹_› hmode

/-- A run that does not serve loads some scripts and plays them one after another. Whenever an expression is evaluated
in some frame of a pattern, wherever in its tree, and the latest entry of a phase of that pattern was in some frame
`start`, then every timer that any loaded script names is there, and it stands at what comes of zero if the length of a
frame is added once for each frame since: whatever the timers stood at when the pattern began, and whatever ran
before. -/
theorem timers_count_from_phase_entry {disk : Disk} {session : Session} {paths failed : List String}
    {loaded : List (String × Pattern Callable)} {state : BuildState} (hmode : settings.buildMode ≠ .serve)
    (hsession : openSession settings disk = .ok session)
    (hload : loadScripts disk settings.scriptsDir paths ⟨session, Project.hosts.2⟩ = .ok ((loaded, failed), state)) :
    ∀ m ∈ stages settings Project.hosts.1 state.hosts loaded, ∀ frames earlier note,
      earlier ++ [note] <+: m.record frames → ∀ c start, note.deed = .evaluate c → latestEntry earlier = some start →
        start ≤ note.before.clock.frame ∧ ∀ path ∈ loaded.map Prod.fst, ∀ name, NamesTimer disk path name →
          ∃ slot, note.before.shared.hosts.timerSlot? name = some slot ∧
            (note.before.shared.hosts.timerOf ⟨slot, name⟩).elapsed =
              elapsedAfter settings.frameTime (note.before.clock.frame - start) := by
  intro m hm frames earlier note hnote c start hdeed hstart
  obtain ⟨-, hloaded⟩ := loadScripts_spec hload rfl (mode_of_openSession hmode hsession)
  have hinFrame := inFrame_of_mem_stages (fun x hx => (hloaded x hx).1) hm
  obtain ⟨hle, hnames, hstand⟩ := hinFrame.timelyRecord frames earlier note hnote c start hdeed hstart
  refine ⟨hle, fun path hpath name hname => ?_⟩
  obtain ⟨x, hx, rfl⟩ := List.mem_map.1 hpath
  obtain ⟨slot, hslot⟩ := Option.isSome_iff_exists.1 ((hloaded x hx).2 name hname)
  have hsame : note.before.shared.hosts.timerSlot? name = some slot := by
    rw [Hosts.timerSlot?_eq, hnames, ← Hosts.timerSlot?_eq, hslot]
  exact ⟨slot, hsame, hstand.elapsed_timerOf hsame⟩

/-! ### A script that waits forever -/

/-- A script that waits for what does not come, and names a timer on the way. -/
def counting : String := "[\x7b\x7d,[[\x7b\x7d,[[\"wait_until\",\"false && timer(\\\"a\\\").elapsed > hp\"]]]]]"

/-- The only expression of the script. -/
def awaited : String := "false && timer(\"a\").elapsed > hp"

/-- The script as it is read. -/
def countingDocument : PatternDocument := ⟨{}, [⟨{}, [.leaf (.waitUntil awaited)]⟩]⟩

/-- A disk with nothing but the script. -/
def countingDisk : Disk := { entries := [(["a"], .file counting)] }

/-- The expression as it is read. -/
def awaitedExpr (timer : TimerHandle) : Expr :=
  .call .and [.const (.bool false), .binary .gt (.member (.const (.timer timer)) .elapsed) (.var "hp")]

/-- The expression as it is compiled. -/
def awaitedCode (timer : TimerHandle) : Callable :=
  (Leaf.request (.bool, awaited)).callable
    (.code (.call .and [.const (.bool false), .binary .gt (.member (.const (.timer timer)) .elapsed) (.slot 1)]))

/-- The script as it is compiled. -/
def countingPattern (timer : TimerHandle) : Pattern Callable :=
  .ofPhases {} [.mk {} [.leaf (.waitUntil (awaitedCode timer))] none none]

theorem readText_counting : countingDisk.readText "a" = .ok counting := by
  cbv

theorem parse?_counting : PatternDocument.parse? counting = some countingDocument := by
  have hjson : Json.parse? counting = some (.array [.object [], .array [.array [.object [],
      .array [.array [.text "wait_until", .text "false && timer(\"a\").elapsed > hp"]]]]]) := by
    cbv
  unfold PatternDocument.parse? Json.readDocument?
  rw [hjson]
  rfl

theorem parseIn_awaited (hosts : Hosts) :
    Expr.parseIn hosts awaited = (.ok (awaitedExpr (hosts.timer "a").1), (hosts.timer "a").2) := by
  cbv

theorem namesTimer_counting : NamesTimer countingDisk "a" "a" :=
  ⟨counting, countingDocument, readText_counting, parse?_counting, (.bool, awaited), List.mem_singleton_self _,
    _, (Project.hosts.2.timer "a").1, by rw [parseIn_awaited], List.mem_singleton_self _, rfl⟩

theorem gives_counting (root : String) (hosts : Hosts) : Gives (loadFile countingDisk root "a") ⟨.direct, hosts⟩
    (countingPattern (hosts.timer "a").1) ⟨.direct, (hosts.timer "a").2⟩ := by
  have hleaf : Gives (compileAt compileLeaf (.bool, awaited)) ⟨.direct, hosts⟩ (awaitedCode (hosts.timer "a").1)
      ⟨.direct, (hosts.timer "a").2⟩ := by
    refine (gives_compileLeaf _ _ _ _).2 (gives_iff.2 ?_)
    rw [run_compileSource, if_neg nofun, run_bind, run_parse, parseIn_awaited]
    exact ⟨rfl, rfl⟩
  have hexpressions : Gives ([(.bool, awaited)].mapM (compileAt compileLeaf)) ⟨.direct, hosts⟩
      [awaitedCode (hosts.timer "a").1] ⟨.direct, (hosts.timer "a").2⟩ :=
    gives_mapM_cons.2 ⟨_, _, _, hleaf, gives_mapM_nil.2 ⟨rfl, rfl⟩, rfl⟩
  obtain ⟨g, hg⟩ := PhaseDocument.exists_placedFrom 0 [awaitedCode (hosts.timer "a").1]
  have hplace : g 0 = awaitedCode (hosts.timer "a").1 := hg 0 _ rfl
  unfold loadFile
  rw [readText_counting]
  refine gives_adapt.2 (gives_loadPattern.2 ⟨_, parse?_counting, gives_within.2
    ⟨none, .direct, ⟨.direct, (hosts.timer "a").2⟩, .direct, rfl, ?_, rfl, rfl⟩⟩)
  rw [countingPattern, ← hplace]
  exact @PatternDocument.gives_compile countingDocument _ _ _ _ g hexpressions rfl hg

theorem loadScripts_counting (root : String) :
    loadScripts countingDisk root ["a"] ⟨.direct, Project.hosts.2⟩ =
      .ok (([("a", countingPattern ⟨0, "a"⟩)], []), ⟨.direct, (Project.hosts.2.timer "a").2⟩) := by
  have hload : (loadFile countingDisk root "a").run.run ⟨.direct, Project.hosts.2⟩ = _ := gives_counting root _
  rw [loadScripts, hload]
  rfl

/-- The run of the script. -/
def countingStage : Machine := stage {} Project.hosts.1 (Project.hosts.2.timer "a").2 (countingPattern ⟨0, "a"⟩)

/-- The phase is entered, and the expression is evaluated in that frame and in the next one. -/
theorem record_counting : ∃ earlier note, countingStage.record 4 = earlier ++ [note] ∧ latestEntry earlier = some 2 ∧
    note.deed = .evaluate (awaitedCode ⟨0, "a"⟩) ∧ note.before.clock.frame = 3 := by
  have hnotes : (countingStage.record 4).map (fun note => (note.entry, note.before.clock.frame)) =
      [(some 2, 2), (none, 2), (none, 3)] := by
    decide +kernel
  have hdeed : (countingStage.record 4)[2]?.map Note.deed = some (.evaluate (awaitedCode ⟨0, "a"⟩)) := rfl
  obtain ⟨first, second, third, hrecord⟩ := List.length_eq_three.1
    ((List.length_map _).symm.trans (congrArg List.length hnotes))
  rw [hrecord] at hnotes hdeed
  simp only [List.map_cons, List.map_nil, List.cons.injEq, Prod.mk.injEq] at hnotes
  obtain ⟨⟨hfirst, -⟩, ⟨hsecond, -⟩, ⟨-, hframe⟩, -⟩ := hnotes
  refine ⟨[first, second], third, hrecord, ?_, Option.some.inj hdeed, hframe⟩
  rw [latestEntry, List.filterMap_cons_some hfirst, List.filterMap_cons_none hsecond]
  rfl

/-- The script waits from the frame on in which its only phase is entered, the third one, for there are frames before
the first phase. In the frame after that one the timer was advanced once. -/
theorem timers_count_from_phase_entry_counting :
    Settings.buildMode {} ≠ .serve ∧ openSession {} countingDisk = .ok .direct ∧
      loadScripts countingDisk (Settings.scriptsDir {}) ["a"] ⟨.direct, Project.hosts.2⟩ =
        .ok (([("a", countingPattern ⟨0, "a"⟩)], []), ⟨.direct, (Project.hosts.2.timer "a").2⟩) ∧
      countingStage ∈ stages {} Project.hosts.1 (Project.hosts.2.timer "a").2 [("a", countingPattern ⟨0, "a"⟩)] ∧
      NamesTimer countingDisk "a" "a" ∧
      ∃ earlier note c, earlier ++ [note] <+: countingStage.record 4 ∧ note.deed = .evaluate c ∧
        latestEntry earlier = some 2 ∧ note.before.clock.frame = 3 ∧
        ∃ slot, note.before.shared.hosts.timerSlot? "a" = some slot ∧
          (note.before.shared.hosts.timerOf ⟨slot, "a"⟩).elapsed = elapsedAfter (1.0 / 120.0) 1 := by
  have hmode : Settings.buildMode {} ≠ .serve := by decide
  have hsession : openSession {} countingDisk = .ok .direct := rfl
  have hload := loadScripts_counting (Settings.scriptsDir {})
  have hstage : countingStage ∈ stages {} Project.hosts.1 (Project.hosts.2.timer "a").2
      [("a", countingPattern ⟨0, "a"⟩)] := List.mem_cons_self
  obtain ⟨earlier, note, hrecord, hstart, hdeed, hframe⟩ := record_counting
  have hnote : earlier ++ [note] <+: countingStage.record 4 := by rw [hrecord]
  obtain ⟨-, htimers⟩ :=
    timers_count_from_phase_entry hmode hsession hload countingStage hstage 4 earlier note hnote _ 2 hdeed hstart
  have htimer := htimers "a" (List.mem_singleton_self _) "a" namesTimer_counting
  rw [hframe] at htimer
  exact ⟨hmode, hsession, hload, hstage, namesTimer_counting, earlier, note, _, hnote, hdeed, hstart, hframe, htimer⟩

end Project

end Barrage
