import Barrage.Proofs.Bake.OpenedArtifacts
import Barrage.Proofs.Project.ServedScripts
import Barrage.Proofs.Project.SparedScripts
import Barrage.Proofs.Project.TwinPlays

/-!
# Runs that are served

A run that serves what another run recorded reads the documents of the scripts and none of their expressions. Timers
that the expressions name do not exist from the start; each comes into being when the first unit that names it is
evaluated, and it stands at zero then. So the phases end as they do in a direct run as long as no timer is named for
the first time while it stands elsewhere in the direct run. Otherwise they need not, although timers are meant to
count from the start of a phase.

## Main definitions

* `Settings.inMode` — settings for a run in a given mode
* `Project.ComparesFloats` — a script compares floats
* `Project.RecordedRun` — a run that was recorded, with artifacts that can be loaded

## Main results

* `Project.ends_run` — what a run that succeeds has done
* `Project.served_run_plays_out` — the phases of a served run
* `Project.served_run_differs` — a served run in which a timer is named late
-/

namespace Barrage

namespace DiskM

variable {ε δ α : Type} {disk disk' : Disk} {a : α}

theorem ends_ofExcept {r : Except ε α} :
    Ends (MonadExcept.ofExcept r : DiskM ε α) disk a disk' ↔ r = .ok a ∧ disk' = disk := by
  cases r with
  | error e =>
    constructor
    · exact fun h => (not_ends_throw h).elim
    · rintro ⟨h, -⟩
      cases h
  | ok b => exact ends_pure.trans (by rw [Except.ok.injEq, eq_comm])

theorem ends_adapt {f : ε → δ} {x : DiskM ε α} : Ends (x.adapt f) disk a disk' ↔ Ends x disk a disk' := by
  have hadapt : (x.adapt f).run.run disk = ((x.run.run disk).1.mapError f, (x.run.run disk).2) := rfl
  rw [Ends, Ends, hadapt, Prod.ext_iff, Prod.ext_iff]
  exact and_congr_left fun _ => Except.mapError_eq_ok_iff

end DiskM

/-- Host objects to which timers were added cover those that were there before. -/
theorem Hosts.Grows.covers {hosts later : Hosts} (h : hosts.Grows later) : later.Covers hosts where
  entities := h.entities.symm
  timers name t ht := by
    obtain ⟨more, hmore⟩ := h.timers
    rw [timer?, hmore, List.find?_append]
    rw [timer?] at ht
    rw [ht, Option.some_or]

/-- Settings for a run in a given mode. -/
def Settings.inMode (settings : Settings) (mode : BuildMode) : Settings := { settings with mode := some mode }

@[simp] theorem Settings.buildMode_inMode (settings : Settings) (mode : BuildMode) :
    (settings.inMode mode).buildMode = mode := rfl

@[simp] theorem Settings.artifactsDir_inMode (settings : Settings) (mode : BuildMode) :
    (settings.inMode mode).artifactsDir = settings.artifactsDir := rfl

namespace Project

open BuildM DiskM Machine

variable {settings : Settings} {disk after : Disk} {summary : Summary} {paths : List String}
  {loaded : List (String × Pattern Callable)} {state : BuildState}

/-- A script compares floats: some text that it has is read as a tree that does. -/
def ComparesFloats (disk : Disk) (path : String) : Prop :=
  ∃ text doc, disk.readText path = .ok text ∧ PatternDocument.parse? text = some doc ∧
    ∃ x ∈ doc.expressions, ∃ hosts e, (Expr.parseIn hosts x.2).1 = .ok e ∧
      e.comparesFloats (Expr.Scope.of Leaf.params) = true

/-- A run that succeeds has opened a session, loaded the scripts, played their patterns and written the artifacts, if
there are any. -/
theorem ends_run : Ends (run settings) disk summary after ↔
    ∃ session paths loaded failed state completions artifacts,
      openSession settings disk = .ok session ∧ scripts settings.scriptsDir disk = .ok paths ∧
      loadScripts disk settings.scriptsDir paths ⟨session, hosts.2⟩ = .ok ((loaded, failed), state) ∧
      playAll settings hosts.1 state.hosts loaded = .ok completions ∧ exported state.session = .ok artifacts ∧
      (match artifacts with
        | none => after = disk
        | some artifacts => Ends (artifacts.write settings.artifactsDir) disk () after) ∧
      summary = ⟨settings.buildMode, loaded.map (·.1), failed, completions,
        artifacts.map fun a => (a.registry.unitCount, a.chunks.length)⟩ := by
  unfold run
  simp only [ends_bind, ends_get, ends_ofExcept]
  constructor
  · rintro ⟨_, _, ⟨rfl, rfl⟩, session, _, ⟨hsession, rfl⟩, paths, _, ⟨hpaths, rfl⟩, ⟨⟨loaded, failed⟩, state⟩, _,
      ⟨hload, rfl⟩, completions, _, ⟨hplay, rfl⟩, artifacts, _, ⟨hexported, rfl⟩, hwrite⟩
    refine ⟨session, paths, loaded, failed, state, completions, artifacts, hsession, hpaths, hload, hplay, hexported, ?_⟩
    cases artifacts with
    | none =>
      obtain ⟨rfl, rfl⟩ := ends_pure.1 hwrite
      exact ⟨rfl, rfl⟩
    | some artifacts =>
      obtain ⟨⟨⟩, _, hwrite, hresult⟩ := ends_bind.1 hwrite
      obtain ⟨rfl, rfl⟩ := ends_pure.1 hresult
      exact ⟨ends_adapt.1 hwrite, rfl⟩
  · rintro ⟨session, paths, loaded, failed, state, completions, artifacts, hsession, hpaths, hload, hplay, hexported,
      hwrite, rfl⟩
    refine ⟨_, _, ⟨rfl, rfl⟩, session, _, ⟨hsession, rfl⟩, paths, _, ⟨hpaths, rfl⟩, ((loaded, failed), state), _,
      ⟨hload, rfl⟩, completions, _, ⟨hplay, rfl⟩, artifacts, _, ⟨hexported, rfl⟩, ?_⟩
    cases artifacts with
    | none => exact ends_pure.2 ⟨rfl, hwrite⟩
    | some artifacts => exact ends_bind.2 ⟨(), after, ends_adapt.2 hwrite, ends_pure.2 ⟨rfl, rfl⟩⟩

/-- Patterns are played alike in all modes. -/
theorem playAll_buildMode (settings : Settings) (mode : BuildMode) (boss : EntityHandle) (hosts : Hosts)
    (patterns : List (String × Pattern Callable)) :
    playAll (settings.inMode mode) boss hosts patterns = playAll settings boss hosts patterns := by
  induction patterns generalizing hosts with
  | nil => rfl
  | cons x rest ih =>
    have hplay : play (settings.inMode mode) boss hosts x.2 = play settings boss hosts x.2 := rfl
    simp only [playAll, hplay, ih]

/-- What is listed as a script has the name of a pattern file. -/
theorem isPattern_of_mem_scripts {root : String} (h : scripts root disk = .ok paths) : ∀ path ∈ paths, isPattern path = true := by
  intro path hpath
  unfold scripts at h
  split at h
  · cases h
    exact (List.mem_filter.1 hpath).2
  · split at h
    · cases h
    · cases h
      exact (List.mem_filter.1 ((List.mergeSort_perm _ _).mem_iff.1 hpath)).2

theorem exported_eq_none {session : Session} (h : session.mode ≠ .record) : exported session = .ok none := by
  unfold exported Session.export
  rw [if_pos h]

/-- A script whose expressions were read compares no floats if none of its texts does. -/
theorem comparesFloats_of_readOver {s : Script} {before later : Hosts} (h : s.ReadOver disk before later)
    (hfloats : ¬ComparesFloats disk s.path) : ∀ e ∈ s.trees, e.comparesFloats (Expr.Scope.of Leaf.params) = false := by
  intro e he
  obtain ⟨text, htext, hdoc⟩ := h.text
  obtain ⟨x, hx, hosts, hparse⟩ := h.compiles.parses.exists_of_mem_right he
  exact Bool.eq_false_iff.2 fun hcompares => hfloats ⟨text, s.doc, htext, hdoc, x, hx, hosts, e, hparse, hcompares⟩

/-- A run that does not record leaves the disk as it was. -/
theorem ends_run_of_unrecorded {mode : BuildMode} {session : Session} {completions : List Completion}
    (hsession : openSession (settings.inMode mode) disk = .ok session) (hpaths : scripts settings.scriptsDir disk = .ok paths)
    (hload : loadScripts disk settings.scriptsDir paths ⟨session, hosts.2⟩ = .ok ((loaded, []), state))
    (hplay : playAll settings hosts.1 state.hosts loaded = .ok completions) (hstate : state.session.mode ≠ .record) :
    Ends (run (settings.inMode mode)) disk ⟨mode, loaded.map (·.1), [], completions, none⟩ disk := by
  rw [← playAll_buildMode settings mode] at hplay
  exact ends_run.2 ⟨session, paths, loaded, [], state, completions, none, hsession, hpaths, hload, hplay,
    exported_eq_none hstate, rfl, rfl⟩

/-! ### Runs that were recorded -/

/-- All scripts of a directory load in direct mode, none of them compares floats, and their sources have different
names. A run in recording mode has left artifacts that can be loaded. -/
structure RecordedRun (settings : Settings) (disk after : Disk) (paths : List String)
    (loaded : List (String × Pattern Callable)) (state : BuildState) : Prop where
  tree : disk.IsTree
  root : disk.isDirectory settings.scriptsDir = true
  listed : scripts settings.scriptsDir disk = .ok paths
  loads : loadScripts disk settings.scriptsDir paths ⟨.direct, hosts.2⟩ = .ok ((loaded, []), state)
  floats : ∀ path ∈ paths, ¬ComparesFloats disk path
  files : (paths.map (Script.fileOf settings.scriptsDir)).Nodup
  records : ∃ recorded, (run (settings.inMode .record)).run.run disk = (.ok recorded, after)
  opens : ∃ store, Store.open settings.artifactsDir after = .ok store

namespace RecordedRun

/-- The scripts are as they were, and so are their texts. -/
theorem kept (h : RecordedRun settings disk after paths loaded state) :
    scripts settings.scriptsDir after = .ok paths ∧ ∀ path ∈ paths, ∀ text, disk.readText path = .ok text →
      after.readText path = .ok text := by
  obtain ⟨recorded, hrecord⟩ := h.records
  obtain ⟨session, paths', loaded, failed, state, completions, artifacts, -, hpaths, -, -, -, hwrite, -⟩ :=
    ends_run.1 hrecord
  cases h.listed.symm.trans hpaths
  cases artifacts with
  | none =>
    obtain rfl : after = disk := hwrite
    exact ⟨hpaths, fun _ _ _ htext => htext⟩
  | some artifacts =>
    obtain ⟨hkept, htexts⟩ := scripts_of_write h.tree h.root hwrite
    exact ⟨hkept.trans hpaths, fun path hpath text htext =>
      htexts path text (isPattern_of_mem_scripts hpaths path hpath) htext⟩

/-- What was recorded and played is what a direct run reads and plays, and the artifacts are those of the scripts. -/
theorem exists_scripts (h : RecordedRun settings disk after paths loaded state) :
    ∃ scripts completions, scripts.map Script.path = paths ∧ scripts.map Script.loaded = loaded ∧
      Script.InTurn disk hosts.2 scripts state.hosts ∧ state.session = .direct ∧
      playAll settings hosts.1 state.hosts loaded = .ok completions ∧
      Store.open settings.artifactsDir after = Store.ofArtifacts
        (RecordedFile.artifacts (RecordedFile.recorded (scripts.map (Script.source settings.scriptsDir)))) := by
  obtain ⟨scripts, rfl, rfl, hscripts, hdirect⟩ := (Script.loadScripts_direct_iff rfl).1 h.loads
  obtain ⟨recorded, hrecord⟩ := h.records
  obtain ⟨session, paths, loaded, failed, recordedState, completions, artifacts, hsession, hpaths, hload, hplay,
    hexported, hwrite, rfl⟩ := ends_run.1 hrecord
  cases hsession
  cases h.listed.symm.trans hpaths
  have hfiles := h.files
  rw [List.map_map] at hfiles
  obtain ⟨recordedSession, hrecorded, hmode, hstack, hbatches⟩ :=
    @Script.InTurn.record _ _ _ _ _ Session.recording hscripts rfl (fun _ _ => List.not_mem_nil) hfiles
  cases hrecorded.symm.trans hload
  rw [playAll_buildMode] at hplay
  rw [exported, Session.export_recording hmode hstack] at hexported
  cases hexported
  obtain ⟨place, hwritten⟩ := Artifacts.writtenTo_of_write h.tree hwrite
  rw [settings.artifactsDir_inMode] at hwritten
  refine ⟨scripts, completions, rfl, rfl, hscripts, hdirect, hplay, ?_⟩
  rw [hwritten.open_eq, hbatches]
  rfl

end RecordedRun

theorem openSession_serve {store : Store} (h : Store.open settings.artifactsDir disk = .ok store) :
    openSession (settings.inMode .serve) disk = .ok (.serving store) := by
  simp only [openSession, settings.buildMode_inMode, settings.artifactsDir_inMode, h]

/-- If a run in recording mode succeeds and its artifacts can be loaded, a run in serving mode succeeds as well, and its
phases complete as those of a direct run do, as long as every timer stands at zero when it is named for the first time:
when an expression that names it is evaluated, and no other was evaluated before in this run, whatever script it belongs
to. -/
theorem served_run_plays_out (h : RecordedRun settings disk after paths loaded state)
    (hnames : NamesAtZero (recordOfStages settings hosts.1 state.hosts loaded)) :
    ∃ direct served, (run (settings.inMode .direct)).run.run disk = (.ok direct, disk) ∧
      (run (settings.inMode .serve)).run.run after = (.ok served, after) ∧
      served.completions = direct.completions := by
  obtain ⟨store, hopen⟩ := h.opens
  obtain ⟨hkept, htexts⟩ := h.kept
  obtain ⟨scripts, completions, rfl, rfl, hscripts, hdirect, hplay, hstore⟩ := h.exists_scripts
  have hfiles := h.files
  rw [List.map_map] at hfiles
  have hread : ∀ s ∈ scripts, after.readText s.path = disk.readText s.path ∧
      ∀ e ∈ s.trees, e.comparesFloats (Expr.Scope.of Leaf.params) = false := by
    intro s hs
    obtain ⟨-, hall⟩ := hscripts.readOver
    obtain ⟨before, later, hover, -⟩ := hall s hs
    obtain ⟨text, htext, -⟩ := hover.text
    have hpath := List.mem_map_of_mem (f := Script.path) hs
    rw [htext, htexts s.path hpath text htext]
    exact ⟨rfl, comparesFloats_of_readOver hover (h.floats _ hpath)⟩
  obtain ⟨served, last, hserved, hserve, hlast, hhosts⟩ := hscripts.serve (fun s hs => (hread s hs).2)
    (fun s hs => (hread s hs).1) hfiles (hstore.symm.trans hopen) hosts.2
  -- The patterns that are served are played over host objects without timers.
  have habreast : Hosts.Abreast state.hosts [] state.hosts last.hosts := by
    rw [hhosts]
    exact ⟨hscripts.readOver.1.covers, .refl _, fun name hname => by
      obtain ⟨note, hnote, -⟩ := hname
      cases hnote⟩
  have hplayed := playAll_twins habreast hserved hnames hplay
  have hdirectMode : state.session.mode ≠ .record := by
    rw [hdirect]
    decide
  have hservedMode : last.session.mode ≠ .record := by
    rw [hlast]
    decide
  exact ⟨_, _, ends_run_of_unrecorded rfl h.listed h.loads hplay hdirectMode,
    ends_run_of_unrecorded (openSession_serve hopen) hkept hserve hplayed hservedMode, rfl⟩

/-! ### A script that waits for a timer

The script has one phase. It pauses for a frame, and waits for as many frames as the timer has counted, in this order or
in the other one. Nothing else is recorded in either case. -/

/-- The only expression of the script. -/
def elapsedText : String := "timer(\"late\").elapsed"

/-- The expression as it is read. -/
def elapsedExpr : Expr := .member (.const (.timer ⟨0, "late"⟩)) .elapsed

/-- The expression as it is compiled. -/
def elapsedCode : Callable :=
  (Leaf.request (.float, elapsedText)).callable (.code (.member (.const (.timer ⟨0, "late"⟩)) .elapsed))

/-- The nodes of the phase. -/
def elapsedNodes {α : Type} (early : Bool) (expr : α) : List (Node α) :=
  if early then [.leaf (.wait expr), .sequence 1.0 []] else [.sequence 1.0 [.leaf (.wait expr)]]

/-- The text of the script. -/
def elapsedDocument (early : Bool) : String :=
  if early then "[\x7b\x7d,[[\x7b\x7d,[[\"wait\",\"timer(\\\"late\\\").elapsed\"],[\"saction\",1,[]]]]]]"
  else "[\x7b\x7d,[[\x7b\x7d,[[\"saction\",1,[[\"wait\",\"timer(\\\"late\\\").elapsed\"]]]]]]]"

/-- The script with a callable for its expression. -/
def elapsedPattern (early : Bool) (c : Callable) : Pattern Callable :=
  .ofPhases {} [.mk {} (elapsedNodes early c) none none]

/-- The path of the script. -/
def elapsedPath : String := Path.join "." "pattern.json"

/-- What is read of the script. -/
def elapsedScript (early : Bool) : Script where
  path := elapsedPath
  doc := ⟨{}, [⟨{}, elapsedNodes early elapsedText⟩]⟩
  numbered := .ofPhases {} [.mk {} (elapsedNodes early 0) none none]
  trees := [elapsedExpr]
  codes := [elapsedCode]
  pattern := elapsedPattern early elapsedCode

/-- The host objects after the script was read. -/
def elapsedHosts : Hosts := (hosts.2.timer "late").2

/-- A disk with the script, and a directory for artifacts. -/
def elapsedDisk (early : Bool) : Disk where
  entries := [(["baked"], .directory), (["pattern.json"], .file (elapsedDocument early))]

/-- A frame takes a second. -/
def elapsedSettings : Settings where
  scriptsDir := "."
  artifactsDir := "baked"
  frameTime := 1.0
  phaseBuffer := false
  maxFrames := 10

theorem isName_pattern : Path.IsName "pattern.json" := by
  constructor <;> decide

theorem names_dot : Path.names "." = ["."] := by
  rw [Path.names, Path.splitOn_slash]
  decide

theorem not_endsWith_dot : ¬".".endsWith "/" = true := by
  rw [Path.endsWith_slash_iff]
  decide

theorem not_startsWith_dot : ¬".".startsWith "/" = true := by
  rw [Path.startsWith_slash_iff]
  decide

theorem names_elapsedPath : Path.names elapsedPath = [".", "pattern.json"] := by
  rw [elapsedPath, isName_pattern.names_join (by decide), names_dot]
  rfl

theorem resolve_dot (disk : Disk) : disk.resolve "." = .ok [] := by
  have hsteps : Path.steps "." = ["."] := (if_neg not_endsWith_dot).trans names_dot
  have hstart : Disk.start "." = [] := if_neg not_startsWith_dot
  refine Disk.resolve_eq_ok_iff.2 ⟨?_, by decide, by decide, ?_⟩
  · rw [String.contains_char_eq]
    decide
  · rw [hstart, hsteps]
    rfl

theorem entry?_root (disk : Disk) : disk.entry? [] = some .directory := Disk.entry?_of_isAnchor rfl

theorem isTree_elapsedDisk (early : Bool) : (elapsedDisk early).IsTree := by
  have hroot : (elapsedDisk early).Founded [] := Disk.founded_of_isAnchor rfl
  exact List.forall_mem_cons.2 ⟨hroot.concat (entry?_root _) ⟨by decide, by decide, by decide, by decide⟩,
    List.forall_mem_singleton.2 (hroot.concat (entry?_root _) ⟨by decide, by decide, by decide, by decide⟩)⟩

theorem scripts_elapsedDisk (early : Bool) : scripts "." (elapsedDisk early) = .ok [elapsedPath] := by
  have hname : Path.fileName? elapsedPath = some "pattern.json" :=
    @Path.fileName?_of_names _ _ ["."] isName_pattern names_elapsedPath
  have hpattern : isPattern elapsedPath = true := by
    simp only [isPattern, hname]
    exact (String.Slice.endsWith_string_iff).2 (by decide)
  have hbelow : Place.below? [] ["pattern.json"] = some ["pattern.json"] := by decide
  have hlists : listsAt "." [] ["pattern.json"] = true := by
    simp only [listsAt, hbelow]
    exact hpattern
  have hfiles : (elapsedDisk early).filesAt (listsAt "." []) =
      [(["pattern.json"], .file (elapsedDocument early))] := by
    simp [Disk.filesAt, elapsedDisk, hlists]
  rw [scripts_eq (resolve_dot _) (entry?_root _), hfiles, List.filterMap_cons, hbelow]
  exact congrArg Except.ok (List.mergeSort_singleton _)

theorem readText_elapsedDisk (early : Bool) :
    (elapsedDisk early).readText elapsedPath = .ok (elapsedDocument early) := by
  have hjoin : elapsedPath = "." ++ "/" ++ "pattern.json" :=
    isName_pattern.join_of_not_endsWith (by decide) not_endsWith_dot
  have hfits : elapsedPath.utf8ByteSize ≤ Disk.maxPath := by
    rw [hjoin]
    decide
  exact Disk.readText_eq_ok_iff.2 ⟨["pattern.json"], Disk.resolve_join_eq isName_pattern (by decide) (by decide)
    hfits (resolve_dot _) (entry?_root _), rfl⟩

theorem parse?_elapsedDocument (early : Bool) :
    PatternDocument.parse? (elapsedDocument early) = some (elapsedScript early).doc := by
  have hjson : Json.parse? (elapsedDocument early) = some (.array [.object [], .array [.array [.object [], .array
      (if early then [.array [.text "wait", .text elapsedText],
          .array [.text "saction", .number ⟨false, ['1'], [], none⟩, .array []]]
        else [.array [.text "saction", .number ⟨false, ['1'], [], none⟩,
          .array [.array [.text "wait", .text elapsedText]]]])]]]) := by
    cases early <;> cbv
  unfold PatternDocument.parse? Json.readDocument?
  rw [hjson]
  cases early <;> rfl

theorem parseIn_elapsedText (hosts : Hosts) : Expr.parseIn hosts elapsedText =
    (.ok (.member (.const (.timer (hosts.timer "late").1)) .elapsed), (hosts.timer "late").2) := by
  cbv

theorem expressions_elapsedScript (early : Bool) : (elapsedScript early).doc.expressions = [(.float, elapsedText)] := by
  cases early <;> rfl

theorem readOver_elapsedScript (early : Bool) :
    (elapsedScript early).ReadOver (elapsedDisk early) hosts.2 elapsedHosts where
  text := ⟨elapsedDocument early, readText_elapsedDisk early, parse?_elapsedDocument early⟩
  numbered := by cases early <;> rfl
  compiles := by
    rw [expressions_elapsedScript]
    have hparse : (Expr.parseIn hosts.2 elapsedText).1 = .ok elapsedExpr := congrArg Prod.fst (parseIn_elapsedText _)
    have hlater : (Expr.parseIn hosts.2 elapsedText).2 = elapsedHosts := congrArg Prod.snd (parseIn_elapsedText _)
    exact .cons hparse ⟨rfl, Expr.sourceNamed_of_parse hparse⟩ rfl (hlater ▸ .nil)
  pattern g hg := by
    have hplace : elapsedCode = g 0 := (hg 0 _ rfl).symm
    simp only [elapsedScript, hplace]
    cases early <;> rfl

theorem inTurn_elapsedScript (early : Bool) :
    Script.InTurn (elapsedDisk early) hosts.2 [elapsedScript early] elapsedHosts :=
  .cons (readOver_elapsedScript early) .nil

theorem not_comparesFloats_elapsedPath (early : Bool) : ¬ComparesFloats (elapsedDisk early) elapsedPath := by
  rintro ⟨text, doc, htext, hdoc, x, hx, hosts, e, he, hcompares⟩
  cases (readText_elapsedDisk early).symm.trans htext
  cases (parse?_elapsedDocument early).symm.trans hdoc
  rw [expressions_elapsedScript] at hx
  cases List.mem_singleton.1 hx
  rw [parseIn_elapsedText] at he
  cases he
  cases hcompares

/-! #### Its artifacts -/

theorem identify_pattern :
    FileId.identify .scriptDump (.path "pattern.json") = ⟨"Sm14074278489010680537"⟩ := by
  decide +kernel

theorem fileOf_elapsedPath : Script.fileOf "." elapsedPath = ⟨"Sm14074278489010680537"⟩ := by
  have hroot : ¬elapsedPath.startsWith "/" = true := by
    rw [elapsedPath, isName_pattern.startsWith_join (by decide)]
    exact not_startsWith_dot
  have hdot : Path.components "." = ["."] := by
    rw [Path.components, ← Path.names, names_dot]
    simp [not_startsWith_dot]
  have hpath : Path.components elapsedPath = [".", "pattern.json"] := by
    rw [Path.components, ← Path.names, names_elapsedPath]
    simp [hroot]
  have hkey : Path.relativeTo? "." elapsedPath = some "pattern.json" := by
    rw [Path.relativeTo?, hdot, hpath]
    rfl
  rw [Script.fileOf, hkey, Option.getD_some]
  exact identify_pattern

/-- What a recording session keeps of the script. -/
def elapsedSource : RecordedFile :=
  RecordedFile.ofExprs ⟨"Sm14074278489010680537"⟩ [(Leaf.request (.float, elapsedText), elapsedExpr)]

theorem source_elapsedScript (early : Bool) : (elapsedScript early).source "." = elapsedSource := by
  have hfile : Script.fileOf "." (elapsedScript early).path = _ := fileOf_elapsedPath
  rw [Script.source, hfile, expressions_elapsedScript]
  rfl

theorem valid_elapsedSource : elapsedSource.Valid := by
  rw [elapsedSource, ← identify_pattern]
  refine RecordedFile.valid_ofExprs _ _ (List.forall_mem_singleton.2 ?_)
  exact ⟨rfl, plain_passed.distinct, plain_passed.params, List.forall_mem_nil _⟩

/-- The unit of the expression. -/
def elapsedUnit : BakedUnit where
  name := "Sm14074278489010680537_0"
  signature := ⟨[.float, .float], .float⟩
  chunk := ⟨elapsedSource.units.map fun u => u.1.function u.2, []⟩

theorem chunks_elapsedSource : (RecordedFile.artifacts [elapsedSource]).chunks =
    [Artifacts.chunkText (elapsedSource.units.map fun u => u.1.definition)] := by
  have hunits : RecordedFile.allUnits [elapsedSource] = elapsedSource.units := List.append_nil _
  have hone : elapsedSource.units.length = 1 := rfl
  rw [RecordedFile.chunks_artifacts, hunits, Artifacts.pieces_of_length_le (List.ne_nil_of_length_eq_add_one hone)
    (by rw [hone]; decide), List.map_singleton]

theorem store_elapsedSource : ∃ store, Store.ofArtifacts (RecordedFile.artifacts [elapsedSource]) = .ok store ∧
    store.unitsFor ⟨"Sm14074278489010680537"⟩ = .ok [elapsedUnit] := by
  have hrefs : (RecordedFile.artifacts [elapsedSource]).registry.units? ⟨"Sm14074278489010680537"⟩ =
      some [⟨elapsedUnit.name, Artifacts.chunkFile 0, elapsedUnit.signature⟩] := rfl
  have hload : Chunk.load? (Artifacts.chunkText (elapsedSource.units.map fun u => u.1.definition)) =
      some elapsedUnit.chunk := by
    refine (Chunk.load?_chunkText valid_elapsedSource.lines valid_elapsedSource.body
      valid_elapsedSource.nodup_names).trans (if_pos ?_)
    decide +kernel
  have hdefines : elapsedUnit.chunk.defines elapsedUnit.name = true := rfl
  refine ⟨⟨(RecordedFile.artifacts [elapsedSource]).registry, [(Artifacts.chunkFile 0, elapsedUnit.chunk)]⟩, ?_, ?_⟩
  · refine Artifacts.ofArtifacts_eq_ok_iff.2 ⟨rfl, Store.readChunks_eq_ok_iff.2 ?_⟩
    rw [Artifacts.sources, chunks_elapsedSource, Store.sortSources, List.mapIdx_singleton, List.mergeSort_singleton]
    exact .cons ⟨rfl, hload⟩ .nil
  · simp [Store.unitsFor, hrefs, Store.unitAt, hdefines]

theorem write_elapsedSource (early : Bool) :
    ∃ after, Ends ((RecordedFile.artifacts [elapsedSource]).write "baked") (elapsedDisk early) () after := by
  have hlist : (elapsedDisk early).list "baked" = .ok [] := by
    simp only [Disk.list, Artifacts.resolve_baked]
    exact congrArg Except.ok List.mergeSort_nil
  have hnone (name : String) : Disk.entry? (elapsedDisk early) ["baked", name] = none := by
    simp [Disk.entry?, elapsedDisk, Place.isAnchor]
  exact Artifacts.write_baked rfl hlist (ends_pure.2 ⟨rfl, rfl⟩) rfl (hnone _) (hnone _) chunks_elapsedSource

/-! #### Its runs -/

theorem playAll_elapsedCode (early : Bool) :
    playAll elapsedSettings hosts.1 elapsedHosts [(elapsedScript early).loaded] =
      .ok [⟨0, none, none, .cleared, if early then 1 else 2⟩] :=
  by cases early <;> rfl

theorem loadScripts_elapsedScript (early : Bool) :
    loadScripts (elapsedDisk early) "." [elapsedPath] ⟨.direct, hosts.2⟩ =
      .ok (([(elapsedScript early).loaded], []), ⟨.direct, elapsedHosts⟩) :=
  (Script.loadScripts_direct_iff rfl).2 ⟨[elapsedScript early], rfl, rfl, inTurn_elapsedScript early, rfl⟩

theorem recordedRun_elapsedScript (early : Bool) : ∃ after store,
    RecordedRun elapsedSettings (elapsedDisk early) after [elapsedPath] [(elapsedScript early).loaded]
        ⟨.direct, elapsedHosts⟩ ∧
      Store.open elapsedSettings.artifactsDir after = .ok store ∧
      store.unitsFor ⟨"Sm14074278489010680537"⟩ = .ok [elapsedUnit] := by
  obtain ⟨session, hload, hmode, hstack, hbatches⟩ := @Script.InTurn.record _ "." _ _ _ Session.recording
    (inTurn_elapsedScript early) rfl (fun _ _ => List.not_mem_nil) (List.nodup_singleton _)
  rw [List.map_singleton, source_elapsedScript] at hbatches
  have hexported : exported session = .ok (some (RecordedFile.artifacts [elapsedSource])) := by
    rw [exported, Session.export_recording hmode hstack, hbatches]
    rfl
  have hplay := playAll_elapsedCode early
  rw [← playAll_buildMode elapsedSettings .record] at hplay
  obtain ⟨after, hwrite⟩ := write_elapsedSource early
  have hrun : ∃ recorded, Ends (run (elapsedSettings.inMode .record)) (elapsedDisk early) recorded after :=
    ⟨_, ends_run.2 ⟨Session.recording, [elapsedPath], [(elapsedScript early).loaded], [], ⟨session, elapsedHosts⟩, _,
      some (RecordedFile.artifacts [elapsedSource]), rfl, scripts_elapsedDisk early, hload, hplay, hexported, hwrite,
      rfl⟩⟩
  obtain ⟨place, hwritten⟩ := Artifacts.writtenTo_of_write (isTree_elapsedDisk early) hwrite
  obtain ⟨store, hstore, hunits⟩ := store_elapsedSource
  have hopen : Store.open elapsedSettings.artifactsDir after = .ok store := hwritten.open_eq.trans hstore
  have hroot : (elapsedDisk early).isDirectory "." = true :=
    Disk.isDirectory_iff.2 ⟨[], resolve_dot _, entry?_root _⟩
  exact ⟨after, store, ⟨isTree_elapsedDisk early, hroot, scripts_elapsedDisk early, loadScripts_elapsedScript early,
    List.forall_mem_singleton.2 (not_comparesFloats_elapsedPath early), List.nodup_singleton _, hrun, store, hopen⟩,
    hopen, hunits⟩

/-- The phase is entered, and the timer is named in the same frame. -/
theorem namesAtZero_elapsedScript :
    NamesAtZero (recordOfStages elapsedSettings hosts.1 elapsedHosts [(elapsedScript true).loaded]) := by
  have hentries : (recordOfStages elapsedSettings hosts.1 elapsedHosts [(elapsedScript true).loaded]).map Note.entry =
      [some 0, none] := rfl
  have hdeed : (recordOfStages elapsedSettings hosts.1 elapsedHosts [(elapsedScript true).loaded])[1]?.map Note.deed =
      some (.evaluate elapsedCode) := rfl
  have htimer : (recordOfStages elapsedSettings hosts.1 elapsedHosts [(elapsedScript true).loaded])[1]?.map
      (fun note => note.before.shared.hosts.timer? "late") = some (some (Timer.new "late")) := rfl
  generalize recordOfStages elapsedSettings hosts.1 elapsedHosts [(elapsedScript true).loaded] = record at *
  obtain ⟨first, second, rfl⟩ :=
    List.length_eq_two.1 ((List.length_map _).symm.trans (congrArg List.length hentries))
  simp only [List.map_cons, List.map_nil, List.cons.injEq, and_true] at hentries
  refine .concat (.concat .nil fun c hc => ?_) fun c hc handle hhandle _ => ?_
  · rw [Note.entry, hc] at hentries
    cases hentries.1
  · cases (Option.some.inj hdeed).symm.trans hc
    cases List.mem_singleton.1 hhandle
    exact Option.some.inj htimer

/-- If the timer is named before the pause, the served run ends as the direct one does, after the pause. -/
theorem served_run_plays_out_early : ∃ after,
    RecordedRun elapsedSettings (elapsedDisk true) after [elapsedPath] [(elapsedScript true).loaded]
        ⟨.direct, elapsedHosts⟩ ∧
      NamesAtZero (recordOfStages elapsedSettings hosts.1 elapsedHosts [(elapsedScript true).loaded]) ∧
      ∃ direct served, (run (elapsedSettings.inMode .direct)).run.run (elapsedDisk true) =
          (.ok direct, elapsedDisk true) ∧
        (run (elapsedSettings.inMode .serve)).run.run after = (.ok served, after) ∧
        served.completions = direct.completions := by
  obtain ⟨after, store, hrecorded, -⟩ := recordedRun_elapsedScript true
  exact ⟨after, hrecorded, namesAtZero_elapsedScript, served_run_plays_out hrecorded namesAtZero_elapsedScript⟩

theorem playAll_elapsedUnit (early : Bool) :
    playAll elapsedSettings hosts.1 hosts.2
        [(elapsedPath, elapsedPattern early ((Leaf.request (.float, elapsedText)).callable (.unit elapsedUnit)))] =
      .ok [⟨0, none, none, .cleared, 1⟩] :=
  by cases early <;> rfl

theorem gives_elapsedUnit {after : Disk} {store : Store} (early : Bool)
    (htext : after.readText elapsedPath = .ok (elapsedDocument early))
    (hunits : store.unitsFor ⟨"Sm14074278489010680537"⟩ = .ok [elapsedUnit]) :
    Gives (loadFile after "." elapsedPath) ⟨.serving store, hosts.2⟩
      (elapsedPattern early ((Leaf.request (.float, elapsedText)).callable (.unit elapsedUnit)))
      ⟨{ Session.serving store with nextId := 1 }, hosts.2⟩ := by
  have hsignatures : List.Forall₂ (fun x unit => BakedUnit.signature unit =
      Signature.of (Leaf.request x).fullParams (Leaf.request x).returns) (elapsedScript early).doc.expressions
      [elapsedUnit] := by
    rw [expressions_elapsedScript]
    exact .cons rfl .nil
  obtain ⟨g, hg⟩ := PhaseDocument.exists_placedFrom 0 (List.zipWith
    (fun x unit => (Leaf.request x).callable (.unit unit)) (elapsedScript early).doc.expressions [elapsedUnit])
  have hplace : (Leaf.request (.float, elapsedText)).callable (.unit elapsedUnit) = g 0 := by
    rw [expressions_elapsedScript] at hg
    exact (hg 0 _ rfl).symm
  have hfound : store.unitsFor (Script.fileOf "." elapsedPath) = .ok [elapsedUnit] := fileOf_elapsedPath ▸ hunits
  have hgives := @Script.ReadOver.gives_units _ "." _ _ _ ⟨.serving store, hosts.2⟩ _ _ _
    (readOver_elapsedScript early) (htext.trans (readText_elapsedDisk early).symm) rfl hfound hsignatures hg
  rw [elapsedPattern, hplace]
  cases early <;> exact hgives

/-- If the timer is named after the pause, it has counted that in a direct run, where it is there from the start of the
phase. In the served run it comes into being when it is named, and has counted nothing. -/
theorem served_run_differs : ∃ after direct served,
    RecordedRun elapsedSettings (elapsedDisk false) after [elapsedPath] [(elapsedScript false).loaded]
        ⟨.direct, elapsedHosts⟩ ∧
      (run (elapsedSettings.inMode .direct)).run.run (elapsedDisk false) = (.ok direct, elapsedDisk false) ∧
      (run (elapsedSettings.inMode .serve)).run.run after = (.ok served, after) ∧
      direct.completions = [⟨0, none, none, .cleared, 2⟩] ∧
      served.completions = [⟨0, none, none, .cleared, 1⟩] := by
  obtain ⟨after, store, hrecorded, hopen, hunits⟩ := recordedRun_elapsedScript false
  obtain ⟨hkept, htexts⟩ := hrecorded.kept
  have htext := htexts elapsedPath (List.mem_singleton_self _) _ (readText_elapsedDisk false)
  have hload : loadScripts after "." [elapsedPath] ⟨.serving store, hosts.2⟩ = .ok (([_], []), _) :=
    Script.loadScripts_cons_iff.2 ⟨_, _, [], gives_elapsedUnit false htext hunits, rfl, rfl⟩
  exact ⟨after, _, _, hrecorded,
    ends_run_of_unrecorded rfl hrecorded.listed hrecorded.loads (playAll_elapsedCode false) (by decide),
    ends_run_of_unrecorded (openSession_serve hopen) hkept hload (playAll_elapsedUnit false) nofun, rfl, rfl⟩

end Project

end Barrage
