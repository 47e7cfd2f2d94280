import Barrage.CommandLine
import Barrage.Machine.Run
import Barrage.Project.Bake

/-!
# Running a project

A run loads every pattern of a directory and plays them one after another, each from its first frame to
its end. The host objects are shared by all of them, while clock, executor and campaign are new for each.
A script that does not load is passed over, unless the artifacts no longer fit the scripts.

## Main definitions

* `Project.play`: plays a pattern
* `Project.Summary`, `Project.run`: a run
* `Project.runWith`: a run as the command line and the environment want it
-/

namespace Barrage.Project

/-- What came of a run. -/
structure Summary where
  mode : BuildMode
  loaded : List String
  failed : List String
  completions : List Completion
  /-- Units and chunks that were written. -/
  exported : Option (Nat × Nat)
deriving DecidableEq, Repr

/-- The lines that sum up a run. -/
def Summary.lines (s : Summary) : List String :=
  let counts := s!"loaded={s.loaded.length} failed={s.failed.length} phases={s.completions.length}"
  ("run finished mode=" ++ s.mode.name ++ " " ++ counts) ::
    match s.exported with
    | none => []
    | some (units, chunks) => [s!"baked expressions written units={units} chunks={chunks}"]

/-- A run of a pattern before its first frame: the clock of the timers takes its turns before the pattern
does. -/
def stage (settings : Settings) (boss : EntityHandle) (hosts : Hosts) (pattern : Pattern Callable) :
    Machine :=
  let world : World :=
    { hosts, executor := { entity := boss }, services := { restartTimers := true }
      bufferFrames := settings.bufferFrames }
  let setUp : World.M Activity Unit := do
    let clock ← Scheduler.makeSource
    Scheduler.spawn (Machine.clockTask (.ofSource clock))
    Scheduler.spawn (Machine.rootTask pattern.toNode .none)
  (setUp.run (Machine.new settings.frameTime world)).2

/-- Plays a pattern to its end. -/
def play (settings : Settings) (boss : EntityHandle) (hosts : Hosts) (pattern : Pattern Callable) :
    Except MachineError (List Completion × Hosts) :=
  match (stage settings boss hosts pattern).runToEnd settings.maxFrames with
  | (.error e, _) => .error e
  | (.ok (.error e), _) => .error e
  | (.ok (.ok ()), m) => .ok (m.shared.campaign.completions, m.shared.hosts)

/-- Plays patterns one after another. -/
def playAll (settings : Settings) (boss : EntityHandle) :
    Hosts → List (String × Pattern Callable) → Except Failure (List Completion)
  | _, [] => .ok []
  | hosts, (path, pattern) :: rest => do
    let (completions, hosts) ← (play settings boss hosts pattern).mapError fun e =>
      (Failure.ofMachine e).within ("Running pattern '" ++ path ++ "'")
    .ok (completions ++ (← playAll settings boss hosts rest))

/-- The session that a mode asks for. -/
def openSession (settings : Settings) (disk : Disk) : Except Failure Session :=
  match settings.buildMode with
  | .direct => .ok .direct
  | .record => .ok .recording
  | .serve =>
    match Store.open settings.artifactsDir disk with
    | .ok store => .ok (.serving store)
    | .error e => .error ((Failure.ofBake e).within
        ("Opening baked artifacts in '" ++ settings.artifactsDir ++ "'"))

/-- Loads scripts one after another: the patterns with their paths, and the paths of those that did not
load. That the artifacts no longer fit the scripts ends the run. -/
def loadScripts (disk : Disk) (root : String) : List String → BuildState →
    Except Failure ((List (String × Pattern Callable) × List String) × BuildState)
  | [], state => .ok (([], []), state)
  | path :: rest, state => do
    let (answer, state) := (BuildM.loadFile disk root path).run.run state
    match answer with
    | .ok pattern =>
      let ((loaded, failed), state) ← loadScripts disk root rest state
      .ok (((path, pattern) :: loaded, failed), state)
    | .error failure =>
      if failure.isDesync then
        .error (failure.within ("Baked expressions are out of date; rerun " ++ bakingTool))
      else
        let ((loaded, failed), state) ← loadScripts disk root rest state
        .ok ((loaded, path :: failed), state)

/-- Loads and plays the patterns of a directory. -/
def run (settings : Settings) : DiskM Failure Summary := do
  let disk ← get
  let (boss, hosts) := hosts
  let session ← MonadExcept.ofExcept (openSession settings disk)
  let paths ← MonadExcept.ofExcept (scripts settings.scriptsDir disk)
  let ((loaded, failed), state) ← MonadExcept.ofExcept
    (loadScripts disk settings.scriptsDir paths ⟨session, hosts⟩)
  let completions ← MonadExcept.ofExcept (playAll settings boss state.hosts loaded)
  let artifacts ← MonadExcept.ofExcept (exported state.session)
  if let some artifacts := artifacts then
    (artifacts.write settings.artifactsDir).adapt Failure.ofBake
  return {
    mode := settings.buildMode
    loaded := loaded.map (·.1)
    failed, completions
    exported := artifacts.map fun a => (a.registry.unitCount, a.chunks.length) }

/-- The settings that configuration file, environment and command line make together. -/
def settingsFor (command : CommandLine) (mode : Option String) (disk : Disk) : Except Failure Settings := do
  let settings ← (Settings.loadOrDefault command.configPath disk).applyEnvironment mode
  .ok (settings.override command.overrides)

/-- A run with the settings of the command line and the mode of the environment. -/
def runWith (command : CommandLine) (mode : Option String) : DiskM Failure Summary := do
  run (← MonadExcept.ofExcept (settingsFor command mode (← get)))

end Barrage.Project
