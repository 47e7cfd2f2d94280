import Barrage.Disk.Change
import Barrage.Project.Run

/-!
# The programs

There are two programs in one. Under its own name it plays the patterns of a project, and under the name
of the baking tool it bakes them. Both work on a value that holds what they need of the disk, and what
they changed in it is written afterwards.
-/

namespace Barrage

/-- Adds what lies at a path and below it. A file that is not text counts as empty. -/
partial def gather (disk : Disk) (path : String) : IO Disk := do
  let place := (← IO.currentDir) / path
  if ← place.isDir then
    let disk := (disk.createAll path).2
    (← place.readDir).foldlM (fun disk entry => gather disk (Path.join path entry.fileName)) disk
  else if ← place.pathExists then
    let text := (String.fromUTF8? (← IO.FS.readBinFile place)).getD ""
    return (disk.writeTextBelow path text).2
  else return disk

/-- Makes a change. -/
def perform : Disk.Change → IO Unit
  | .removeFile path => IO.FS.removeFile path
  | .createDirectory path => IO.FS.createDirAll path
  | .writeFile path text => IO.FS.writeFile path text

/-- Runs a computation on what lies at some paths. -/
def onDisk {α : Type} (paths : List String) (job : DiskM Failure α) : IO (Except Failure α) := do
  let before ← paths.foldlM gather Disk.empty
  let (answer, after) := job.run.run before
  (before.changesTo after).forM perform
  return answer

/-- The program that plays a project. -/
def playProject (args : List String) : IO UInt32 := do
  match CommandLine.parse args with
  | .error message =>
    IO.eprintln ("[cli] " ++ message)
    return 2
  | .ok command =>
    let mode ← IO.getEnv Settings.modeVariable
    let config ← gather Disk.empty command.configPath
    let answer ← match Project.settingsFor command mode config with
      | .error failure => pure (.error failure)
      | .ok settings => onDisk [settings.scriptsDir, settings.artifactsDir] (Project.run settings)
    match answer with
    | .error failure =>
      IO.eprintln ("run failed: " ++ failure.message)
      return 1
    | .ok summary =>
      summary.lines.forM (IO.eprintln ·)
      return 0

/-- The tool that bakes a project. It takes the directory of the artifacts and that of the scripts. -/
def bakeProject (args : List String) : IO UInt32 := do
  let settings : Settings := {}
  let out := args[0]?.getD settings.artifactsDir
  let root := args[1]?.getD settings.scriptsDir
  let failure? ← match ← onDisk [root, out] (Project.bake root out) with
    | .error failure => pure (some failure)
    | .ok report => do
      IO.println report.message
      pure report.failure?
  match failure? with
  | none => return 0
  | some failure =>
    IO.eprintln ("Error: " ++ failure.message)
    return 1

end Barrage

/-- Runs the program that goes by the name of the call. -/
def main (args : List String) : IO UInt32 := do
  if (← IO.appPath).fileName == some Barrage.Project.bakingTool then Barrage.bakeProject args
  else Barrage.playProject args
